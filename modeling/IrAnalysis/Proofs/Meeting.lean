/-
# Meeting infos in any order

Values meet in any order and any grouping, and one info that is free of side effects makes
the meet so.  Facts about types do not: two that differ are both given up, and then a third
one stands alone.  So what is left of a list of infos met one after the other
(`Info.Merged`) says the value and the freedom from side effects for every list, and the
fact for lists that agree on one; and the order of the list does not matter to it
(`Info.Merged.of_perm`).
-/

import IrAnalysis.Assumption.Info
import Mathlib.Data.List.Perm.Basic

namespace IrAnalysis

/-- A list in which nothing but `t` stands, apart from what an operation ignores, comes to `t` if
it has it at all. -/
theorem foldl_of_one {α : Type} [DecidableEq α] {op : α → α → α} {ignored t a : α} {l : List α}
    (hleft : ∀ b, op ignored b = b) (hright : ∀ b, op b ignored = b) (hself : op t t = t)
    (ha : a = ignored ∨ a = t) (hl : ∀ b ∈ l, b = ignored ∨ b = t) :
    l.foldl op a = if a = t ∨ t ∈ l then t else ignored := by
  induction l generalizing a with
  | nil =>
    rw [List.foldl_nil]
    split
    · next h => exact h.resolve_right List.not_mem_nil
    · next h => exact ha.resolve_right fun he => h (Or.inl he)
  | cons b l ih =>
    rw [List.forall_mem_cons] at hl
    have hop : (op a b = ignored ∨ op a b = t) ∧ (op a b = t ↔ a = t ∨ b = t) := by
      rcases ha with rfl | rfl <;> rcases hl.1 with rfl | rfl <;> simp [hleft, hright, hself]
    rw [List.foldl_cons, ih hop.1 hl.2]
    refine if_congr ?_ rfl rfl
    rw [hop.2, or_assoc, List.mem_cons, eq_comm (a := t)]

namespace AbsVal

variable {a b v w : AbsVal} {vs ws : List AbsVal}

theorem unknown_meet (a : AbsVal) : unknown.meet a = a := rfl

theorem meet_unknown (a : AbsVal) : a.meet unknown = a := by
  cases a <;> rfl

theorem meet_self (a : AbsVal) : a.meet a = a := by
  cases a <;> simp [meet]

/-- Values about which something is known meet at `bottom`, unless they are equal. -/
theorem meet_of_known (ha : a ≠ unknown) (hb : b ≠ unknown) :
    a.meet b = if a = b then a else bottom := by
  unfold meet
  split
  · exact absurd rfl ha
  · exact absurd rfl hb
  · rfl

theorem bottom_meet_of_known (hb : b ≠ unknown) : bottom.meet b = bottom := by
  rw [meet_of_known (fun h => by cases h) hb]
  split <;> rfl

theorem meet_assoc (a b c : AbsVal) : (a.meet b).meet c = a.meet (b.meet c) := by
  by_cases ha : a = unknown
  · rw [ha, unknown_meet, unknown_meet]
  by_cases hb : b = unknown
  · rw [hb, meet_unknown, unknown_meet]
  by_cases hc : c = unknown
  · rw [hc, meet_unknown, meet_unknown]
  rw [meet_of_known ha hb, meet_of_known hb hc]
  by_cases hab : a = b
  · by_cases hbc : b = c
    · rw [if_pos hab, if_pos hbc, hab, hbc]
    · rw [if_pos hab, if_neg hbc, hab, meet_of_known hb hc, if_neg hbc, meet_comm,
        bottom_meet_of_known hb]
  · by_cases hbc : b = c
    · rw [if_neg hab, if_pos hbc, bottom_meet_of_known hc, meet_of_known ha hb, if_neg hab]
    · rw [if_neg hab, if_neg hbc, bottom_meet_of_known hc, meet_comm, bottom_meet_of_known ha]

instance : Std.Commutative meet := ⟨meet_comm⟩

instance : Std.Associative meet := ⟨meet_assoc⟩

/-- What all values say together. -/
def meetAll (vs : List AbsVal) : AbsVal := vs.foldl meet unknown

theorem meetAll_perm (h : vs.Perm ws) : meetAll vs = meetAll ws := h.foldl_op_eq

theorem meetAll_append (vs ws : List AbsVal) :
    meetAll (vs ++ ws) = (meetAll vs).meet (meetAll ws) := by
  rw [meetAll, List.foldl_append]
  calc ws.foldl meet (vs.foldl meet unknown)
      = ws.foldl meet ((meetAll vs).meet unknown) := by rw [meet_unknown, meetAll]
    _ = (meetAll vs).meet (meetAll ws) := List.foldl_assoc

/-- **Values that do not contradict each other** say what one of them says. -/
theorem meetAll_of_one (hvs : ∀ w ∈ vs, w = unknown ∨ w = v) :
    meetAll vs = if v ∈ vs then v else unknown := by
  rw [meetAll, foldl_of_one unknown_meet meet_unknown (meet_self v) (Or.inl rfl) hvs]
  by_cases hv : v = unknown
  · simp [hv]
  · simp [Ne.symm hv]

/-- No value says more than all of them together. -/
theorem meetAll_meet_of_mem (hv : v ∈ vs) : (meetAll vs).meet v = meetAll vs := by
  obtain ⟨before, after, rfl⟩ := List.append_of_mem hv
  have hfront : meetAll (before ++ v :: after) = (meetAll (before ++ after)).meet v := by
    rw [meetAll_perm (List.perm_middle.trans (List.perm_append_singleton v _).symm),
      meetAll_append]
    rfl
  rw [hfront, meet_assoc, meet_self]

/-- **Values that contradict each other** leave nothing. -/
theorem meetAll_of_conflict (hv : v ∈ vs) (hw : w ∈ vs) (hvk : v ≠ unknown) (hwk : w ≠ unknown)
    (hne : v ≠ w) : meetAll vs = bottom := by
  have hmv := meetAll_meet_of_mem hv
  have hmw := meetAll_meet_of_mem hw
  generalize meetAll vs = u at hmv hmw
  have huk : u ≠ unknown := by
    rintro rfl
    exact hvk hmv
  rw [meet_of_known huk hvk] at hmv
  rw [meet_of_known huk hwk] at hmw
  split at hmv
  · next huv =>
    rw [if_neg fun huw => hne (huv.symm.trans huw)] at hmw
    exact hmw.symm
  · exact hmv.symm

end AbsVal

namespace TypeFact

variable {t a : TypeFact} {facts : List TypeFact}

/-- **As long as one fact alone is known, it is what is left.** -/
theorem foldl_meet_of_one (ha : a = unknown ∨ a = t) (hfacts : ∀ u ∈ facts, u = unknown ∨ u = t) :
    facts.foldl meet a = if a = t ∨ t ∈ facts then t else unknown :=
  foldl_of_one unknown_meet meet_unknown (meet_self t) ha hfacts

end TypeFact

namespace Info

variable {i j : Info} {is js : List Info}

theorem meet_fact (i j : Info) : (i.meet j).fact = i.fact.meet j.fact := of_fact ..

theorem meet_value (i j : Info) : (i.meet j).value = i.value.meet j.value := of_value ..

theorem meet_pure (i j : Info) : (i.meet j).pure = (i.pure || j.pure) := of_pure ..

theorem empty_meet (i : Info) : empty.meet i = i := by
  have horigins : NatSet.empty.union i.origins = i.origins :=
    NatSet.ext_mem fun k => NatSet.mem_union.trans (or_iff_right List.not_mem_nil)
  rw [meet]
  show of (TypeFact.unknown.meet i.fact) (AbsVal.unknown.meet i.value) (false || i.pure)
    (NatSet.empty.union i.origins) = i
  rw [TypeFact.unknown_meet, AbsVal.unknown_meet, Bool.false_or, horigins, of_parts]

/-- Infos met one after the other. -/
def meetAll (is : List Info) : Info := is.foldl meet empty

/-- **What is left of infos that are met.**  What they say of the type counts as long as it is one
thing. -/
structure Merged (is : List Info) (i : Info) : Prop where
  value : i.value = AbsVal.meetAll (is.map (·.value))
  pure : i.pure = is.any (·.pure)
  fact : ∀ t, (∀ j ∈ is, j.fact = .unknown ∨ j.fact = t) →
    i.fact = if t ∈ is.map (·.fact) then t else .unknown

theorem merged_meetAll (is : List Info) : Merged is (meetAll is) where
  value := by
    have hfold : is.foldl (fun v j => v.meet j.value) empty.value = (is.foldl meet empty).value :=
      List.foldl_hom Info.value fun i j => (meet_value i j).symm
    rw [AbsVal.meetAll, List.foldl_map]
    exact hfold.symm
  pure := by
    have hfold : ∀ (is : List Info) (i : Info),
        (is.foldl meet i).pure = (i.pure || is.any (·.pure)) := by
      intro is
      induction is with
      | nil => exact fun i => (Bool.or_false _).symm
      | cons j is ih =>
        intro i
        rw [List.foldl_cons, ih, meet_pure, List.any_cons, Bool.or_assoc]
    exact hfold is empty
  fact t ht := by
    have hfold : is.foldl (fun u j => u.meet j.fact) empty.fact = (is.foldl meet empty).fact :=
      List.foldl_hom Info.fact fun i j => (meet_fact i j).symm
    have hone : ∀ u ∈ is.map (·.fact), u = .unknown ∨ u = t := List.forall_mem_map.2 ht
    have hmap : (meetAll is).fact = (is.map (·.fact)).foldl TypeFact.meet .unknown := by
      rw [List.foldl_map]
      exact hfold.symm
    rw [hmap, TypeFact.foldl_meet_of_one (Or.inl rfl) hone]
    by_cases hmem : t ∈ is.map (·.fact)
    · rw [if_pos (Or.inr hmem), if_pos hmem]
    · rw [if_neg hmem]
      split
      · next h => exact (h.resolve_right hmem).symm
      · rfl

/-- **The order in which infos are met does not matter to what is left.** -/
theorem Merged.of_perm (h : is.Perm js) (hi : Merged is i) : Merged js i where
  value := hi.value.trans (AbsVal.meetAll_perm (h.map _))
  pure := hi.pure.trans h.any_eq
  fact t ht := by
    rw [hi.fact t fun j hj => ht j (h.mem_iff.1 hj)]
    exact if_congr (h.map _).mem_iff rfl rfl

end Info
end IrAnalysis
