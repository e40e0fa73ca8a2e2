/-
# What flows through phis and pass-through operations

A phi has the join of the types of its operands, and a pass-through operation
makes a type of the type of its operand.  Both are monotone (`joinAll_le_joinAll`,
`outputType_le_outputType`), lead from normal forms to normal forms and never make
an array lose its dimensions, which is all that the type fixpoint needs of them.

Types can also not climb for ever: `rank` grows strictly along the order
(`rank_lt_of_le`) and is at most three more than the height of the class
hierarchy (`rank_le`), which the depth of its classes bounds (`Hierarchy.height_le`).
-/

import IrAnalysis.Proofs.Renaming

namespace IrAnalysis

namespace Ty

variable {h : Hierarchy} {a b c : Ty} {ts : List Ty}

theorem foldl_join_le_iff : (ts.foldl (join h) a).le h c ↔ a.le h c ∧ ∀ t ∈ ts, t.le h c := by
  induction ts generalizing a with
  | nil => simp
  | cons t ts ih => rw [List.foldl_cons, ih, join_le_iff, List.forall_mem_cons, and_assoc]

/-- **The join of a list is the least type above its members.** -/
theorem joinAll_le_iff : (joinAll h ts).le h c ↔ ∀ t ∈ ts, t.le h c := by
  rw [joinAll, foldl_join_le_iff]
  exact and_iff_right (bottom_le h c)

theorem le_joinAll (ha : a ∈ ts) : a.le h (joinAll h ts) :=
  joinAll_le_iff.1 (le_refl h _) a ha

theorem joinAll_le_joinAll {α : Type} {l : List α} {f g : α → Ty}
    (hfg : ∀ x ∈ l, (f x).le h (g x)) : (joinAll h (l.map f)).le h (joinAll h (l.map g)) := by
  refine joinAll_le_iff.2 fun t ht => ?_
  obtain ⟨x, hx, rfl⟩ := List.mem_map.1 ht
  exact le_trans (hfg x hx) (le_joinAll (List.mem_map_of_mem hx))

theorem joinAll_isNormal (h : Hierarchy) (ts : List Ty) : (joinAll h ts).IsNormal := by
  have hfold : ∀ (ts : List Ty) (a : Ty), a.IsNormal → (ts.foldl (join h) a).IsNormal := by
    intro ts
    induction ts with
    | nil => exact fun a ha => ha
    | cons t ts ih => exact fun a _ => ih _ (join_isNormal h a t)
  exact hfold ts bottom rfl

theorem isProper_bottom : bottom.IsProper := rfl

/-- Joining a list of proper types is no violation. -/
theorem foldlM_tryJoin (ha : a.IsProper) (hts : ∀ t ∈ ts, t.IsProper) :
    ts.foldlM (tryJoin h) a = .ok (ts.foldl (join h) a) ∧ (ts.foldl (join h) a).IsProper := by
  induction ts generalizing a with
  | nil => exact ⟨rfl, ha⟩
  | cons t ts ih =>
    rw [List.forall_mem_cons] at hts
    have ht := ih (join_isProper (h := h) ha hts.1) hts.2
    rw [List.foldlM_cons, List.foldl_cons, tryJoin_of_proper h ha hts.1]
    exact ht

theorem tryJoinAll_of_proper (hts : ∀ t ∈ ts, t.IsProper) :
    tryJoinAll h ts = .ok (joinAll h ts) :=
  (foldlM_tryJoin isProper_bottom hts).1

theorem joinAll_isProper (hts : ∀ t ∈ ts, t.IsProper) : (joinAll h ts).IsProper :=
  (foldlM_tryJoin isProper_bottom hts).2

theorem isBottom_iff : a.isBottom ↔ a = bottom := by
  cases a <;> simp [isBottom]

theorem le_bottom_iff (ha : a.IsNormal) : a.le h bottom ↔ a = bottom := by
  rw [le_iff_below, ha.eq]
  exact below_bottom_iff

theorem asNonNull_isNormal : a.asNonNull.IsNormal := by
  rcases a with _ | _ | p | _ | ⟨s, n⟩ <;> rfl

theorem asNonNull_isProper (ha : a.IsProper) : a.asNonNull.IsProper := by
  rcases a with _ | _ | p | _ | ⟨s, n⟩
  case ref => exact isProper_ofShape ha .nonNull
  all_goals rfl

/-- A type in normal form keeps its place in the order without `null`. -/
theorem asNonNull_le_asNonNull (ha : a.IsNormal) (hb : b.IsNormal) (hab : a.le h b) :
    a.asNonNull.le h b.asNonNull := by
  rw [le_iff_below, ha.eq, hb.eq] at hab
  rw [le_iff_below, asNonNull_isNormal.eq, asNonNull_isNormal.eq]
  rcases a with _ | _ | p | _ | ⟨s, m⟩ <;> rcases b with _ | _ | q | _ | ⟨t, n⟩ <;>
    try first | exact hab | exact hab.elim | exact below_top _ | exact bottom_below _
  case ref.ref => exact ⟨hab.1, Nullness.le_refl _⟩

end Ty

namespace Operation

variable {h : Hierarchy} {op : Operation} {a b : Ty}

/-- An upper bound that the operation assumes is written in normal form and
names no array without dimensions. -/
def IsProper (op : Operation) : Prop :=
  ∀ bound, op = assume (.upperBound bound) → bound.IsNormal ∧ bound.IsProper

/-- An upper bound that the operation assumes names no array without dimensions. -/
def Dimensioned (op : Operation) : Prop :=
  ∀ bound, op = assume (.upperBound bound) → bound.IsProper

theorem IsProper.dimensioned (hop : op.IsProper) : op.Dimensioned := fun bound hbound =>
  (hop bound hbound).2

instance (op : Operation) : Decidable op.Dimensioned :=
  match op with
  | .assume (.upperBound t) =>
    decidable_of_iff t.IsProper ⟨fun ht bound hbound => by cases hbound; exact ht, fun ht => ht t rfl⟩
  | .assume .unknown | .assume .nonNull | .argument _ | .number _ | .null | .string _ | .allocate _
  | .cast _ | .fieldGet _ | .fieldPut _ | .invoke _ | .move | .goto | .branch | .ret | .raise =>
    .isTrue fun _ hbound => by cases hbound

theorem outputType_bottom (h : Hierarchy) (op : Operation) : op.outputType h .bottom = .bottom := by
  unfold outputType
  split
  · rfl
  · next bound =>
    refine Ty.le_antisymm (h := h) (Ty.meet_isNormal h _ _) rfl ?_ (Ty.bottom_le h _)
    exact Ty.meet_le_left h _ _
  · rfl

theorem outputType_isNormal (ha : a.IsNormal) : (op.outputType h a).IsNormal := by
  unfold outputType
  split
  · exact Ty.asNonNull_isNormal
  · exact Ty.meet_isNormal h _ _
  · exact ha

theorem outputType_isProper (hop : op.Dimensioned) (ha : a.IsProper) :
    (op.outputType h a).IsProper := by
  unfold outputType
  split
  · exact Ty.asNonNull_isProper ha
  · next bound => exact Ty.meet_isProper ha (hop bound rfl)
  · exact ha

/-- **A pass-through operation is monotone.** -/
theorem outputType_le_outputType (ha : a.IsNormal) (hb : b.IsNormal) (hab : a.le h b) :
    (op.outputType h a).le h (op.outputType h b) := by
  unfold outputType
  split
  · exact Ty.asNonNull_le_asNonNull ha hb hab
  · exact Ty.meet_le_meet hab (Ty.le_refl h _)
  · exact hab

end Operation

/-! ### How far a type can climb -/

namespace Hierarchy

variable {h : Hierarchy}

theorem foldl_max_le_iff {l : List Nat} {m n : Nat} :
    l.foldl max m ≤ n ↔ m ≤ n ∧ ∀ k ∈ l, k ≤ n := by
  induction l generalizing m with
  | nil => simp
  | cons k l ih => rw [List.foldl_cons, ih, Nat.max_le, List.forall_mem_cons, and_assoc]

theorem le_foldl_max {l : List Nat} {m n : Nat} (hn : n ≤ m ∨ n ∈ l) : n ≤ l.foldl max m := by
  obtain ⟨hm, hl⟩ := foldl_max_le_iff.1 (Nat.le_refl (l.foldl max m))
  rcases hn with hn | hn
  · exact Nat.le_trans hn hm
  · exact hl n hn

theorem two_le_height (h : Hierarchy) : 2 ≤ h.height := le_foldl_max (Or.inl (Nat.le_refl 2))

theorem lineage_length_le_height (h : Hierarchy) (c : ClassId) :
    (h.lineage c).length ≤ h.height := by
  unfold height
  by_cases hroot : c = h.root
  · refine le_foldl_max (Or.inl ?_)
    simp [hroot, lineage_root]
  · cases hs : h.supers.get? c with
    | none =>
      -- An undeclared class hangs directly below the root.
      have hp : h.parent c = some h.root := by simp [parent, parentIn, hroot, hs]
      refine le_foldl_max (Or.inl ?_)
      simp [lineage_of_parent hp, lineage_root]
    | some p =>
      refine le_foldl_max (Or.inr (List.mem_map.2 ⟨c, ?_, rfl⟩))
      exact List.mem_map.2 ⟨_, (Table.mem_entries _ _ _).2 hs, rfl⟩

/-- **The height is one more than the greatest depth.** -/
theorem height_le {D : Nat} (hD : ∀ c, h.depth c ≤ D) : h.height ≤ D + 1 := by
  obtain ⟨c, hc⟩ := h.exists_depth_pos
  refine foldl_max_le_iff.2 ⟨Nat.succ_le_succ (Nat.lt_of_lt_of_le hc (hD c)), fun k hk => ?_⟩
  obtain ⟨c, -, rfl⟩ := List.mem_map.1 hk
  rw [length_lineage]
  exact Nat.succ_le_succ (hD c)

end Hierarchy

namespace Shape

variable {h : Hierarchy} {s t : Shape}

/-- The number of shapes from `s` up to the root class, both counted. -/
def level (h : Hierarchy) (s : Shape) : Nat := (s.lineage h).length

theorem level_lt (hst : s.Below h t) (hne : t ≠ s) : t.level h < s.level h :=
  (isLineage h).length_lt (below_iff_mem_lineage.1 hst) hne

theorem level_pos (h : Hierarchy) (s : Shape) : 0 < s.level h :=
  List.length_pos_of_mem (mem_lineage_self h s)

theorem level_le (h : Hierarchy) (s : Shape) : s.level h ≤ h.height + 1 := by
  rcases s with c | ⟨p | c, m⟩
  · have := h.lineage_length_le_height c
    simp only [level, lineage, List.length_map]
    omega
  · have := h.lineage_length_le_height (⟨0⟩ : ClassId)
    have := List.length_pos_of_mem (h.mem_lineage_self ⟨0⟩)
    simp only [level, lineage, List.length_cons, List.length_nil]
    omega
  · have := h.lineage_length_le_height c
    simp only [level, lineage, List.length_append, List.length_map, List.length_singleton]
    omega

end Shape

namespace Ty

variable {h : Hierarchy} {a b : Ty}

/-- A number that grows strictly along the order. -/
def rank (h : Hierarchy) : Ty → Nat
  | bottom => 0
  | null => 1
  | prim p => if p = .int then 2 else 1
  | ref s n => if n = .maybe then h.height + 3 - s.level h else h.height + 2 - s.level h
  | top => h.height + 3

theorem rank_le (h : Hierarchy) (a : Ty) : a.rank h ≤ h.height + 3 := by
  rcases a with _ | _ | p | _ | ⟨s, n⟩ <;> simp only [rank] <;> (try split_ifs) <;> omega

/-- **Types climb strictly.** -/
theorem rank_lt_of_le (ha : a.IsNormal) (hb : b.IsNormal) (hab : a.le h b) (hne : a ≠ b) :
    a.rank h < b.rank h := by
  rw [le_iff_below, ha.eq, hb.eq] at hab
  have hheight := h.two_le_height
  rcases a with _ | _ | p | _ | ⟨s, m⟩ <;> rcases b with _ | _ | q | _ | ⟨t, n⟩ <;>
    try first | exact absurd rfl hne | exact hab.elim
  case prim.prim =>
    rcases hab with rfl | ⟨rfl, hp⟩
    · exact absurd rfl hne
    · have hint : p ≠ .int := fun e => hne (e ▸ rfl)
      simp [rank, hint]
  case null.ref =>
    have hn : n = .maybe := hab
    have ht := t.level_le h
    simp only [rank, hn, if_true]
    omega
  case ref.top =>
    have hs := s.level_pos h
    simp only [rank]
    split_ifs <;> omega
  case ref.ref =>
    obtain ⟨hst, hmn⟩ := hab
    have hs := s.level_le h
    by_cases he : t = s
    · -- The same shape: only the nullness grew.
      subst he
      rcases isNormal_ref_iff.1 ha with rfl | rfl <;> rcases isNormal_ref_iff.1 hb with rfl | rfl
      · exact absurd rfl hne
      · simp only [rank, reduceCtorEq, if_false, if_true]
        omega
      · cases hmn
      · exact absurd rfl hne
    · have hlt := Shape.level_lt hst he
      rcases isNormal_ref_iff.1 ha with rfl | rfl <;> rcases isNormal_ref_iff.1 hb with rfl | rfl
      · simp only [rank, reduceCtorEq, if_false]
        omega
      · simp only [rank, reduceCtorEq, if_false, if_true]
        omega
      · cases hmn
      · simp only [rank, if_true]
        omega
  case prim.top =>
    simp only [rank]
    split_ifs <;> omega
  case bottom.ref =>
    have ht := t.level_le h
    simp only [rank]
    split_ifs <;> omega
  case bottom.prim =>
    simp only [rank]
    split_ifs <;> omega
  all_goals
    simp only [rank]
    omega

end Ty
end IrAnalysis
