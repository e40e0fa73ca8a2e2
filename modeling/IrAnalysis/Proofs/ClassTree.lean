/-
# Trees given by lineages

A tree can be given by listing, for each node, the node itself and all that lies
above it, the nearest first.  `IsLineage` says when a function does that: each
tail of a list is the list of its first member.  Being listed is then a partial
order (`IsLineage.trans`, `IsLineage.antisymm`) in which what lies above one node
is a chain (`IsLineage.chain`), and the first member of one list that is in
another is the least node above both (`IsLineage.mem_nearest`).

The lineages of a class hierarchy are such lists (`Hierarchy.isLineage`), and
being listed in them is the same as being reached by going up from parent to
parent (`Hierarchy.below_iff_mem_lineage`).  How long the list is says how deep
the class lies (`Hierarchy.length_lineage`).
-/

import IrAnalysis.Hierarchy
import Mathlib.Logic.Relation
import Mathlib.Tactic.ByContra

namespace IrAnalysis

/-- `up a` lists `a` and all that lies above it in a tree, the nearest first. -/
structure IsLineage {α : Type} (up : α → List α) : Prop where
  self_mem : ∀ a, a ∈ up a
  /-- What follows a node in a list is what lies above it. -/
  tail : ∀ {a x r}, x :: r <:+ up a → up x = x :: r

namespace IsLineage

variable {α : Type} {up : α → List α} {a b c p : α}

/-- The tails of the lineage of a top node. -/
theorem tail_of_top (ha : up a = [a]) {x : α} {r : List α} (hs : x :: r <:+ up a) :
    up x = x :: r := by
  rw [ha] at hs
  rcases List.suffix_cons_iff.1 hs with e | hs
  · obtain ⟨rfl, rfl⟩ := List.cons.inj e
    exact ha
  · simp at hs

/-- The tails of the lineage of a node, from those of its parent. -/
theorem tail_of_parent (ha : up a = a :: up p)
    (hp : ∀ {x : α} {r : List α}, x :: r <:+ up p → up x = x :: r)
    {x : α} {r : List α} (hs : x :: r <:+ up a) : up x = x :: r := by
  rw [ha] at hs
  rcases List.suffix_cons_iff.1 hs with e | hs
  · obtain ⟨rfl, rfl⟩ := List.cons.inj e
    exact ha
  · exact hp hs

theorem suffix (hup : IsLineage up) (hb : b ∈ up a) : up b <:+ up a := by
  obtain ⟨l, r, hr⟩ := List.append_of_mem hb
  have hs : b :: r <:+ up a := ⟨l, hr.symm⟩
  rw [hup.tail hs]
  exact hs

theorem exists_cons (hup : IsLineage up) (a : α) : ∃ r, up a = a :: r := by
  obtain ⟨l, r, hr⟩ := List.append_of_mem (hup.self_mem a)
  exact ⟨r, hup.tail ⟨l, hr.symm⟩⟩

theorem trans (hup : IsLineage up) (hb : b ∈ up a) (hc : c ∈ up b) : c ∈ up a :=
  (hup.suffix hb).subset hc

/-- **Lineages shrink on the way up.** -/
theorem length_lt (hup : IsLineage up) (hb : b ∈ up a) (hne : b ≠ a) :
    (up b).length < (up a).length := by
  have hs := hup.suffix hb
  refine Nat.lt_of_le_of_ne hs.length_le fun hl => hne ?_
  have he := hs.eq_of_length hl
  obtain ⟨r, hr⟩ := hup.exists_cons a
  obtain ⟨t, ht⟩ := hup.exists_cons b
  rw [hr, ht] at he
  exact (List.cons.inj he).1

theorem antisymm (hup : IsLineage up) (hb : b ∈ up a) (ha : a ∈ up b) : a = b := by
  by_contra hne
  have h₁ := hup.length_lt hb (Ne.symm hne)
  have h₂ := hup.length_lt ha hne
  omega

/-- **What lies above one node is a chain.** -/
theorem chain (hup : IsLineage up) (hb : b ∈ up a) (hc : c ∈ up a) : c ∈ up b ∨ b ∈ up c := by
  rcases List.suffix_or_suffix_of_suffix (hup.suffix hb) (hup.suffix hc) with h | h
  · exact Or.inr (h.subset (hup.self_mem b))
  · exact Or.inl (h.subset (hup.self_mem c))

variable [BEq α] [LawfulBEq α]

/-- The search for a common node along a tail `l` of a lineage: what is skipped
is not above `b`, and what is found has all that follows it above it. -/
theorem mem_nearest_of_suffix (hup : IsLineage up) {l : List α} {top : α} (hl : l <:+ up a)
    (ht : top ∈ l) (htb : top ∈ up b) :
    c ∈ up ((l.find? (up b).contains).getD top) ↔ c ∈ l ∧ c ∈ up b := by
  induction l with
  | nil => simp at ht
  | cons x r ih =>
    have hx : up x = x :: r := hup.tail hl
    by_cases hxb : x ∈ up b
    · rw [List.find?_cons_of_pos (by simpa using hxb), Option.getD_some, ← hx]
      exact ⟨fun hc => ⟨hc, hup.trans hxb hc⟩, And.left⟩
    · have htr : top ∈ r := (List.mem_cons.1 ht).resolve_left fun e => hxb (e ▸ htb)
      rw [List.find?_cons_of_neg (by simpa using hxb), ih ((List.suffix_cons x r).trans hl) htr]
      constructor
      · rintro ⟨hc, hcb⟩
        exact ⟨List.mem_cons_of_mem _ hc, hcb⟩
      · rintro ⟨hc, hcb⟩
        exact ⟨(List.mem_cons.1 hc).resolve_left fun e => hxb (e ▸ hcb), hcb⟩

/-- **The first node of one lineage that is in another is the least above both.** -/
theorem mem_nearest (hup : IsLineage up) {top : α} (hta : top ∈ up a) (htb : top ∈ up b) :
    c ∈ up (((up a).find? (up b).contains).getD top) ↔ c ∈ up a ∧ c ∈ up b :=
  hup.mem_nearest_of_suffix (List.suffix_refl _) hta htb

end IsLineage

namespace Hierarchy

variable {h : Hierarchy} {a b c d : ClassId}

/-- `d` is `c`, its parent, the parent of that, and so on. -/
def Below (h : Hierarchy) : ClassId → ClassId → Prop :=
  Relation.ReflTransGen fun x p => h.parent x = some p

theorem isLineage (h : Hierarchy) : IsLineage h.lineage where
  self_mem := h.mem_lineage_self
  tail := by
    intro a
    induction a using h.induction_on with
    | root => exact IsLineage.tail_of_top h.lineage_root
    | below a p hp ih => exact IsLineage.tail_of_parent (lineage_of_parent hp) ih

theorem below_iff_mem_lineage : h.Below c d ↔ d ∈ h.lineage c := by
  constructor
  · intro hd
    induction hd with
    | refl => exact h.mem_lineage_self c
    | tail _ hp ih =>
      refine h.isLineage.trans ih ?_
      rw [lineage_of_parent hp]
      exact List.mem_cons_of_mem _ (h.mem_lineage_self _)
  · intro hd
    induction c using h.induction_on with
    | root =>
      rw [lineage_root, List.mem_singleton] at hd
      rw [hd]
      exact Relation.ReflTransGen.refl
    | below c p hp ih =>
      rw [lineage_of_parent hp, List.mem_cons] at hd
      rcases hd with rfl | hd
      · exact Relation.ReflTransGen.refl
      · exact Relation.ReflTransGen.head hp (ih hd)

theorem isSubtype_iff_below : h.isSubtype c d = true ↔ h.Below c d :=
  List.contains_iff_mem.trans below_iff_mem_lineage.symm

theorem below_root (c : ClassId) : h.Below c h.root :=
  below_iff_mem_lineage.2 (h.root_mem_lineage c)

theorem eq_root_of_root_below (hd : h.Below h.root d) : d = h.root := by
  rw [below_iff_mem_lineage, lineage_root] at hd
  exact List.mem_singleton.1 hd

theorem Below.antisymm (hcd : h.Below c d) (hdc : h.Below d c) : c = d :=
  h.isLineage.antisymm (below_iff_mem_lineage.1 hcd) (below_iff_mem_lineage.1 hdc)

/-- What lies above one class is a chain. -/
theorem Below.total (hab : h.Below a b) (hac : h.Below a c) : h.Below b c ∨ h.Below c b := by
  simp only [below_iff_mem_lineage] at *
  exact h.isLineage.chain hab hac

/-! ### How deep classes lie -/

theorem length_lineage (h : Hierarchy) (c : ClassId) : (h.lineage c).length = h.depth c + 1 := by
  have hpos := List.length_pos_of_mem (h.mem_lineage_self c)
  rw [depth]
  omega

theorem depth_of_parent (hp : h.parent c = some d) : h.depth c = h.depth d + 1 := by
  rw [depth, lineage_of_parent hp, List.length_cons, h.length_lineage, Nat.add_sub_cancel]

theorem depth_root (h : Hierarchy) : h.depth h.root = 0 := by
  rw [depth, lineage_root, List.length_singleton]

/-- **A class lies deeper than those above it.** -/
theorem Below.depth_lt (hcd : h.Below c d) (hne : c ≠ d) : h.depth d < h.depth c := by
  have hlength := h.isLineage.length_lt (below_iff_mem_lineage.1 hcd) hne.symm
  rw [length_lineage, length_lineage] at hlength
  exact Nat.lt_of_succ_lt_succ hlength

/-- Some class is not the root, and lies below it. -/
theorem exists_depth_pos (h : Hierarchy) : ∃ c, 0 < h.depth c := by
  obtain ⟨c, hc⟩ : ∃ c : ClassId, c ≠ h.root := by
    refine ⟨⟨h.root.index + 1⟩, fun he => ?_⟩
    have hindex := congrArg ClassId.index he
    exact Nat.succ_ne_self _ hindex
  obtain ⟨p, hp⟩ := Option.ne_none_iff_exists'.1 (mt parent_eq_none.1 hc)
  refine ⟨c, ?_⟩
  rw [depth_of_parent hp]
  exact Nat.succ_pos _

/-- In the tree of the root alone all other classes lie directly below it. -/
theorem depth_ofRoot_le (root c : ClassId) : (ofRoot root).depth c ≤ 1 := by
  cases hp : (ofRoot root).parent c with
  | none =>
    rw [parent_eq_none.1 hp, depth_root]
    exact Nat.zero_le 1
  | some p =>
    have hroot : p = (ofRoot root).root := by
      unfold parent parentIn at hp
      split at hp
      · exact absurd hp (by simp)
      · exact (Option.some.inj hp).symm
    have hdepth := depth_of_parent hp
    rw [hroot, depth_root] at hdepth
    exact Nat.le_of_eq hdepth

end Hierarchy
end IrAnalysis
