/-
# Lists of uses and lists of work

What is read how often: counting in lists from which a use is taken, in which one
name stands for another, and in which the place of an operand is gone.  Beside
these stands what the traversals of a graph have in common: they put what they see
for the first time at the end of what they have seen and of what they have yet to do
(`enter`, or `entered` where both are one list), and they end because a sum goes down
with one of its terms (`sum_lower`).
-/

import IrAnalysis.Graph.Change
import Mathlib.Algebra.BigOperators.Group.Finset.Basic
import Mathlib.Algebra.BigOperators.Group.Finset.Piecewise
import Mathlib.Algebra.Order.BigOperators.Group.Finset
import Mathlib.Data.Finset.Range
import Mathlib.Data.List.Nodup
import Mathlib.Logic.Function.Iterate
import Mathlib.Tactic.SplitIfs

namespace IrAnalysis

variable {α : Type} [DecidableEq α] {a b : α} {l : List α}

theorem count_one : [a].count b = if b = a then 1 else 0 := by
  simp only [List.count_singleton, beq_iff_eq, eq_comm (a := b)]

/-- After a renaming the new name counts for both and the old one for none. -/
theorem count_map_rename {old new : α} (hne : old ≠ new) :
    (l.map fun a => if a = old then new else a).count b =
      if b = new then l.count new + l.count old else if b = old then 0 else l.count b := by
  induction l with
  | nil => simp
  | cons a l ih =>
    rw [List.map_cons, List.count_cons, ih]
    by_cases hbn : b = new
    · by_cases ha : a = old
      · simp [hbn, ha, hne]
        omega
      · by_cases han : a = new
        · simp [hbn, han, hne.symm]
          omega
        · simp [hbn, ha, han]
    · by_cases hbo : b = old
      · by_cases ha : a = old
        · simp [hbo, ha, hne, hne.symm]
        · simp [hbo, ha, hne]
      · by_cases ha : a = old
        · simp [hbn, hbo, ha, Ne.symm hbn, Ne.symm hbo]
        · simp [hbn, hbo, ha, List.count_cons]

theorem count_filter_ne : (l.filter (· ≠ a)).count b = if b = a then 0 else l.count b := by
  by_cases hb : b = a
  · rw [if_pos hb]
    exact List.count_eq_zero.2 fun hmem => by simp [hb] at hmem
  · rw [if_neg hb]
    exact List.count_filter (by simpa using hb)

/-- Taking out takes one occurrence, if there is one. -/
theorem count_takeOut : (takeOut a l).count b = l.count b - if b = a then 1 else 0 := by
  unfold takeOut
  cases hi : l.idxOf? a with
  | none =>
    have ha : a ∉ l := List.idxOf?_eq_none_iff.1 hi
    by_cases hb : b = a
    · simp [hb, List.count_eq_zero_of_not_mem ha]
    · simp [hb]
  | some i =>
    obtain ⟨hlt, hia, -⟩ := List.idxOf?_eq_some_iff.1 hi
    have hne : l ≠ [] := List.ne_nil_of_length_pos (by omega)
    rw [List.getLast?_eq_some_getLast hne]
    show ((l.set i (l.getLast hne)).dropLast).count b = _
    -- The last member comes to stand in the place of `a` and is dropped at the end.
    have hset : l.set i (l.getLast hne) ≠ [] := by simpa using hne
    have hlast : (l.set i (l.getLast hne)).getLast hset = l.getLast hne := by
      simp [List.getLast_eq_getElem, List.getElem_set]
    have hcount := List.count_set (a := l.getLast hne) (b := b) hlt
    rw [← List.dropLast_concat_getLast hset, List.count_append, hlast, hia] at hcount
    by_cases hb : b = a
    · subst hb
      have hpos : 0 < l.count b := List.count_pos_iff.2 (hia ▸ List.getElem_mem hlt)
      by_cases hl : l.getLast hne = b
      · simp [hl] at hcount ⊢
        omega
      · simp [hl] at hcount ⊢
        omega
    · have hab : ¬ a = b := Ne.symm hb
      by_cases hl : l.getLast hne = b
      · simp [hl, hab, hb] at hcount ⊢
        omega
      · simp [hl, hab, hb] at hcount ⊢
        omega

theorem takeOut_nil : takeOut a [] = [] := rfl

theorem count_iterate_takeOut (n : Nat) :
    ((takeOut a)^[n] l).count b = l.count b - if b = a then n else 0 := by
  induction n generalizing l with
  | zero => simp
  | succ n ih =>
    rw [Function.iterate_succ_apply, ih, count_takeOut]
    split <;> omega

/-- Erasing at an index takes one occurrence of what stands there. -/
theorem count_eraseIdx {i : Nat} (hi : l[i]? = some a) :
    (l.eraseIdx i).count b + (if b = a then 1 else 0) = l.count b := by
  obtain ⟨hlt, rfl⟩ := List.getElem?_eq_some_iff.1 hi
  have hl : l.count b = (l.take i ++ l[i] :: l.drop (i + 1)).count b := by
    rw [← List.drop_eq_getElem_cons, List.take_append_drop]
  rw [hl, List.eraseIdx_eq_take_drop_succ, List.count_append, List.count_append, List.count_cons]
  by_cases hb : b = l[i]
  · simp [hb]
    omega
  · simp [hb, Ne.symm hb]

/-- Erasing at an index takes one occurrence of `b` if `b` stands there. -/
theorem count_eraseIdx_eq (i : Nat) :
    (l.eraseIdx i).count b = l.count b - if l[i]? = some b then 1 else 0 := by
  cases hi : l[i]? with
  | none => rw [List.eraseIdx_of_length_le (List.getElem?_eq_none_iff.1 hi), if_neg (by simp)]; rfl
  | some a =>
    have hcount := count_eraseIdx (b := b) hi
    simp only [Option.some.injEq, eq_comm (a := a)]
    omega

omit [DecidableEq α] in
/-- Reading a list that was made one longer. -/
theorem getElem?_concat_eq {n : Nat} :
    (l ++ [a])[n]? = if n = l.length then some a else l[n]? := by
  rw [List.getElem?_append]
  split
  · next hlt => rw [if_neg (by omega)]
  · next hlt =>
    split
    · next he => simp [he]
    · next he =>
      have hpos : n - l.length ≠ 0 := by omega
      rw [List.getElem?_eq_none (by omega : l.length ≤ n)]
      simp [hpos]

omit [DecidableEq α] in
/-- Lists of one length are the same if they are where a gap reads as the end of the list does. -/
theorem eq_of_join_getElem? {l l' : List (Option α)} (hlen : l'.length = l.length)
    (h : ∀ n : Nat, l'[n]?.join = l[n]?.join) : l' = l := by
  refine List.ext_getElem hlen fun n h₁ h₂ => ?_
  have hn := h n
  rwa [List.getElem?_eq_getElem h₁, List.getElem?_eq_getElem h₂] at hn

/-- Reading one thing for another, twice over, is reading it once. -/
theorem map_rename_idem (old new : α) (l : List α) :
    (l.map fun a => if a = old then new else a).map (fun a => if a = old then new else a) =
      l.map fun a => if a = old then new else a := by
  rw [List.map_map]
  refine List.map_congr_left fun a _ => ?_
  by_cases ha : a = old <;> by_cases hn : new = old <;> simp [ha, hn]

/-- A name that was not there before can be taken back. -/
theorem map_rename_back {old new : α} (hnew : new ∉ l) :
    (l.map fun a => if a = old then new else a).map (fun a => if a = new then old else a) = l := by
  rw [List.map_map]
  refine (List.map_congr_left fun a ha => ?_).trans (List.map_id l)
  have hne : a ≠ new := fun he => hnew (he ▸ ha)
  by_cases hold : a = old
  · simp [hold]
  · simp [hold, hne]

/-! ### Seeing things once -/

/-- Put at the end of both lists what is not in the first one yet. -/
def enter (seen queue : List α) : List α → List α × List α
  | [] => (seen, queue)
  | a :: r => if a ∈ seen then enter seen queue r else enter (seen ++ [a]) (queue ++ [a]) r

/-- **What is entered is put once at the end of both lists**, and then all is seen. -/
theorem enter_eq (seen queue l : List α) :
    ∃ fresh, enter seen queue l = (seen ++ fresh, queue ++ fresh) ∧
      (∀ a ∈ l, a ∈ seen ++ fresh) ∧ (∀ a ∈ fresh, a ∈ l) ∧ fresh.length ≤ l.length ∧
      (seen.Nodup → (seen ++ fresh).Nodup) := by
  induction l generalizing seen queue with
  | nil =>
    refine ⟨[], ?_, ?_, ?_, ?_, ?_⟩
    · simp [enter]
    · simp
    · simp
    · simp
    · simp
  | cons b l ih =>
    rw [enter]
    by_cases hb : b ∈ seen
    · obtain ⟨fresh, heq, hall, hnew, hlen, hnodup⟩ := ih seen queue
      rw [if_pos hb]
      refine ⟨fresh, heq, ?_, fun c hc => List.mem_cons_of_mem b (hnew c hc), ?_, hnodup⟩
      · intro c hc
        rcases List.mem_cons.1 hc with rfl | hc
        · exact List.mem_append_left _ hb
        · exact hall c hc
      · rw [List.length_cons]
        omega
    · obtain ⟨fresh, heq, hall, hnew, hlen, hnodup⟩ := ih (seen ++ [b]) (queue ++ [b])
      rw [if_neg hb]
      refine ⟨b :: fresh, ?_, ?_, ?_, ?_, ?_⟩
      · rw [heq, List.append_assoc, List.append_assoc]
        rfl
      · intro c hc
        rcases List.mem_cons.1 hc with rfl | hc
        · simp
        · simpa using hall c hc
      · intro c hc
        rcases List.mem_cons.1 hc with rfl | hc
        · exact List.mem_cons_self
        · exact List.mem_cons_of_mem b (hnew c hc)
      · rw [List.length_cons, List.length_cons]
        omega
      · intro hseen
        have hcat : (seen ++ [b]).Nodup := by
          rw [List.nodup_append_comm, List.singleton_append, List.nodup_cons]
          exact ⟨hb, hseen⟩
        simpa using hnodup hcat

/-- The list with what is not in it yet put at its end. -/
def entered (seen l : List α) : List α := (enter seen seen l).1

theorem entered_cons (seen : List α) (a : α) (l : List α) :
    entered seen (a :: l) = entered (if a ∈ seen then seen else seen ++ [a]) l := by
  unfold entered
  rw [enter]
  split_ifs <;> rfl

theorem entered_append (seen l l' : List α) :
    entered seen (l ++ l') = entered (entered seen l) l' := by
  induction l generalizing seen with
  | nil => rfl
  | cons a l ih => rw [List.cons_append, entered_cons, ih, entered_cons]

theorem mem_entered {seen l : List α} : a ∈ entered seen l ↔ a ∈ seen ∨ a ∈ l := by
  obtain ⟨fresh, heq, hall, hnew, -, -⟩ := enter_eq seen seen l
  rw [entered, heq]
  constructor
  · intro ha
    exact (List.mem_append.1 ha).imp_right (hnew a)
  · rintro (ha | ha)
    · exact List.mem_append_left _ ha
    · exact hall a ha

theorem length_entered (seen l : List α) :
    seen.length ≤ (entered seen l).length ∧ (entered seen l).length ≤ seen.length + l.length := by
  obtain ⟨fresh, heq, -, -, hlen, -⟩ := enter_eq seen seen l
  rw [entered, heq, List.length_append]
  omega

theorem nodup_entered {seen : List α} (l : List α) (hseen : seen.Nodup) :
    (entered seen l).Nodup := by
  obtain ⟨fresh, heq, -, -, -, hnodup⟩ := enter_eq seen seen l
  rw [entered, heq]
  exact hnodup hseen

/-! ### Going through a list with checks -/

/-- Where no member is refused, neither is the list. -/
theorem mapM_eq_ok {β γ ε : Type} {f : β → Except ε γ} {k : β → γ} {l : List β}
    (hk : ∀ b ∈ l, f b = .ok (k b)) : l.mapM f = .ok (l.map k) := by
  induction l with
  | nil => rfl
  | cons b l ih =>
    rw [List.forall_mem_cons] at hk
    rw [List.mapM_cons, hk.1, ih hk.2]
    rfl

/-- Where no member is refused the results have what is known of each. -/
theorem exists_mapM_eq_ok {β γ ε : Type} {f : β → Except ε γ} {R : β → γ → Prop} {l : List β}
    (hl : ∀ b ∈ l, ∃ c, f b = .ok c ∧ R b c) :
    ∃ cs, l.mapM f = .ok cs ∧ List.Forall₂ R l cs := by
  induction l with
  | nil => exact ⟨[], rfl, .nil⟩
  | cons b l ih =>
    rw [List.forall_mem_cons] at hl
    obtain ⟨⟨c, hc, hR⟩, hrest⟩ := hl
    obtain ⟨cs, hcs, hRs⟩ := ih hrest
    refine ⟨c :: cs, ?_, .cons hR hRs⟩
    rw [List.mapM_cons, hc, hcs]
    rfl

/-- One check and then another go through exactly if both do. -/
theorem bind_eq_ok {β ε : Type} {x : Except ε Unit} {f : Unit → Except ε β} {b : β} :
    x >>= f = .ok b ↔ x = .ok () ∧ f () = .ok b := by
  cases x <;> simp [bind, Except.bind]

/-- A list passes a check exactly if each member does. -/
theorem forM_eq_ok {β ε : Type} {f : β → Except ε Unit} {l : List β} :
    l.forM f = .ok () ↔ ∀ b ∈ l, f b = .ok () := by
  induction l with
  | nil => exact ⟨fun _ b hb => absurd hb List.not_mem_nil, fun _ => rfl⟩
  | cons b l ih =>
    have hcons : (b :: l).forM f = (do f b; l.forM f) := rfl
    rw [hcons, bind_eq_ok, List.forall_mem_cons, ← ih]

/-! ### Sums that go down -/

/-- A sum goes down with one of its terms. -/
theorem sum_lower {s : Finset α} {m : Nat} {f g : α → Nat} (ha : a ∈ s) (hle : g a + m ≤ f a)
    (hne : ∀ b, b ≠ a → g b = f b) : (∑ b ∈ s, g b) + m ≤ ∑ b ∈ s, f b := by
  have hrest : ∑ b ∈ s.erase a, g b = ∑ b ∈ s.erase a, f b :=
    Finset.sum_congr rfl fun b hb => hne b (Finset.ne_of_mem_erase hb)
  rw [← Finset.add_sum_erase _ g ha, ← Finset.add_sum_erase _ f ha, hrest]
  omega

/-- The places of a list that hold members of a set are as many as the members occur in it. -/
theorem countP_mem_eq_sum (s : Finset α) (l : List α) :
    l.countP (· ∈ s) = ∑ a ∈ s, l.count a := by
  induction l with
  | nil => simp
  | cons b l ih =>
    simp only [List.countP_cons, List.count_cons, Finset.sum_add_distrib, ih, beq_iff_eq,
      decide_eq_true_eq, Finset.sum_ite_eq]

/-- A sum over a list is a sum over its places. -/
theorem foldr_add_eq_sum {β : Type} (l : List β) (f : β → Nat) :
    l.foldr (fun x n => f x + n) 0 = ∑ j ∈ Finset.range l.length, (l[j]?.map f).getD 0 := by
  induction l with
  | nil => rfl
  | cons x l ih =>
    rw [List.foldr_cons, ih, List.length_cons, Finset.sum_range_succ']
    simp [Nat.add_comm]

end IrAnalysis
