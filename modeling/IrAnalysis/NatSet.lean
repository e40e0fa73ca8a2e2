/-
# Finite sets of numbers

The members stand in ascending order, so that two sets with the same members
are the same set (`NatSet.ext_mem`).
-/

namespace IrAnalysis

/-- A finite set of numbers. -/
structure NatSet where
  toList : List Nat
  sorted : toList.Pairwise (· < ·)
deriving DecidableEq

namespace NatSet

def empty : NatSet := ⟨[], List.Pairwise.nil⟩

instance : Membership Nat NatSet := ⟨fun s n => n ∈ s.toList⟩

/-- Put a number in its place, once. -/
def place (n : Nat) : List Nat → List Nat
  | [] => [n]
  | m :: r => if n < m then n :: m :: r else if n = m then m :: r else m :: place n r

theorem mem_place {n k : Nat} {l : List Nat} : k ∈ place n l ↔ k = n ∨ k ∈ l := by
  induction l with
  | nil => simp [place]
  | cons m r ih =>
    unfold place
    split
    · simp
    · split
      · next h => subst h; simp
      · simp only [List.mem_cons, ih]
        exact or_left_comm

theorem pairwise_place {n : Nat} {l : List Nat} (h : l.Pairwise (· < ·)) :
    (place n l).Pairwise (· < ·) := by
  induction l with
  | nil => simp [place]
  | cons m r ih =>
    have hm := List.pairwise_cons.1 h
    unfold place
    split
    · next hn =>
      refine List.pairwise_cons.2 ⟨fun k hk => ?_, h⟩
      rcases List.mem_cons.1 hk with rfl | hk
      · exact hn
      · exact Nat.lt_trans hn (hm.1 k hk)
    · split
      · exact h
      · refine List.pairwise_cons.2 ⟨fun k hk => ?_, ih hm.2⟩
        rcases mem_place.1 hk with rfl | hk
        · omega
        · exact hm.1 k hk

def insert (s : NatSet) (n : Nat) : NatSet := ⟨place n s.toList, pairwise_place s.sorted⟩

def union (s t : NatSet) : NatSet := t.toList.foldl insert s

def ofList (l : List Nat) : NatSet := l.foldl insert empty

theorem mem_insert {s : NatSet} {n k : Nat} : k ∈ s.insert n ↔ k = n ∨ k ∈ s := mem_place

theorem mem_foldl_insert {l : List Nat} {s : NatSet} {k : Nat} :
    k ∈ l.foldl insert s ↔ k ∈ s ∨ k ∈ l := by
  induction l generalizing s with
  | nil => simp
  | cons n r ih =>
    rw [List.foldl_cons, ih, mem_insert, List.mem_cons]
    constructor
    · rintro ((h | h) | h) <;> simp [h]
    · rintro (h | h | h) <;> simp [h]

theorem mem_union {s t : NatSet} {k : Nat} : k ∈ s.union t ↔ k ∈ s ∨ k ∈ t := mem_foldl_insert

theorem mem_ofList {l : List Nat} {k : Nat} : k ∈ ofList l ↔ k ∈ l := by
  rw [ofList, mem_foldl_insert]
  exact or_iff_right (show ¬ k ∈ ([] : List Nat) from List.not_mem_nil)

/-- **Sets with the same members are equal.** -/
theorem ext_mem {s t : NatSet} (h : ∀ k, k ∈ s ↔ k ∈ t) : s = t := by
  obtain ⟨l, hl⟩ := s
  obtain ⟨r, hr⟩ := t
  have h' : ∀ k, k ∈ l ↔ k ∈ r := h
  suffices l = r by subst this; rfl
  clear h
  induction l generalizing r with
  | nil => exact (List.eq_nil_iff_forall_not_mem.2 fun k hk => by simpa using (h' k).2 hk).symm
  | cons m l ih =>
    cases r with
    | nil => exact absurd ((h' m).1 List.mem_cons_self) List.not_mem_nil
    | cons n r =>
      have hl' := List.pairwise_cons.1 hl
      have hr' := List.pairwise_cons.1 hr
      have hmn : m = n := by
        rcases List.mem_cons.1 ((h' m).1 List.mem_cons_self) with e | hm
        · exact e
        · rcases List.mem_cons.1 ((h' n).2 List.mem_cons_self) with e | hn
          · exact e.symm
          · have h1 := hr'.1 m hm
            have h2 := hl'.1 n hn
            omega
      subst hmn
      refine congrArg (m :: ·) (ih hl'.2 r hr'.2 fun k => ?_)
      constructor
      · intro hk
        rcases List.mem_cons.1 ((h' k).1 (List.mem_cons_of_mem _ hk)) with e | hk'
        · have := hl'.1 k hk
          omega
        · exact hk'
      · intro hk
        rcases List.mem_cons.1 ((h' k).2 (List.mem_cons_of_mem _ hk)) with e | hk'
        · have := hr'.1 k hk
          omega
        · exact hk'

end NatSet
end IrAnalysis
