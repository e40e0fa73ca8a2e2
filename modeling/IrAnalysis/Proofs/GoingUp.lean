/-
# Going up the class tree

Every question about the class tree is answered on the way up from a class, one parent at a time.
Whether `a` lies below `b` is a search for `b` on the way up from `a`; all classes lie below the
root, so nobody has to search for that.  For the nearest class above two of them the way up from one
is gone to its end and kept, and the way up from the other is searched for what was kept.  The depth
of a class counts the steps.  These walks are the definitions of `Hierarchy.Stepwise`.

`Hierarchy` asks the lineage, the way up as a list, and the answers are the same
(`Stepwise.isSubtype_eq`, `Stepwise.commonAncestor_eq`, `Stepwise.depth_eq`), whichever side the
search goes up and wherever it stops early.  So all of them are about one tree, and its order is
going up from parent to parent (`classes_form_tree`).  A class that was never declared has its place
in it, directly below the root.
-/

import IrAnalysis.Proofs.Declaring

namespace IrAnalysis
namespace Hierarchy

variable {h : Hierarchy} {a b c p : ClassId} {wanted : ClassId → Bool}

/-! ### The way up -/

/-- The first class on the way up from `c` that is wanted; the way begins with `c` itself. -/
def searchUp (h : Hierarchy) (wanted : ClassId → Bool) (c : ClassId) : Option ClassId :=
  if wanted c then some c
  else
    match _hp : h.parent c with
    | none => none
    | some p => h.searchUp wanted p
termination_by h.grounded.wrap c
decreasing_by exact _hp

/-- What becomes of `s` on the way up from `c` to its end, as each class is visited. -/
def walkUp {σ : Type} (h : Hierarchy) (visit : σ → ClassId → σ) (s : σ) (c : ClassId) : σ :=
  match _hp : h.parent c with
  | none => visit s c
  | some p => h.walkUp visit (visit s c) p
termination_by h.grounded.wrap c
decreasing_by exact _hp

theorem searchUp_of_wanted (hc : wanted c = true) : h.searchUp wanted c = some c := by
  rw [searchUp, if_pos hc]

theorem searchUp_root (hroot : wanted h.root = false) : h.searchUp wanted h.root = none := by
  rw [searchUp, if_neg (Bool.eq_false_iff.1 hroot)]
  split
  · rfl
  · next p hp => exact nomatch hp.symm.trans h.parent_root

theorem searchUp_of_parent (hc : wanted c = false) (hp : h.parent c = some p) :
    h.searchUp wanted c = h.searchUp wanted p := by
  rw [searchUp, if_neg (Bool.eq_false_iff.1 hc)]
  split
  · next hn => exact nomatch hp.symm.trans hn
  · next q hq => rw [Option.some.inj (hq.symm.trans hp)]

theorem walkUp_root {σ : Type} (visit : σ → ClassId → σ) (s : σ) :
    h.walkUp visit s h.root = visit s h.root := by
  rw [walkUp]
  split
  · rfl
  · next p hp => exact nomatch hp.symm.trans h.parent_root

theorem walkUp_of_parent {σ : Type} (visit : σ → ClassId → σ) (s : σ) (hp : h.parent c = some p) :
    h.walkUp visit s c = h.walkUp visit (visit s c) p := by
  rw [walkUp]
  split
  · next hn => exact nomatch hp.symm.trans hn
  · next q hq => rw [Option.some.inj (hq.symm.trans hp)]

/-- **The search goes through the lineage.** -/
theorem searchUp_eq_find? (h : Hierarchy) (wanted : ClassId → Bool) (c : ClassId) :
    h.searchUp wanted c = (h.lineage c).find? wanted := by
  induction c using h.induction_on with
  | root =>
    rw [lineage_root]
    cases hroot : wanted h.root with
    | true => rw [searchUp_of_wanted hroot, List.find?_cons_of_pos hroot]
    | false =>
      rw [searchUp_root hroot, List.find?_cons_of_neg (Bool.eq_false_iff.1 hroot), List.find?_nil]
  | below c p hp ih =>
    rw [lineage_of_parent hp]
    cases hc : wanted c with
    | true => rw [searchUp_of_wanted hc, List.find?_cons_of_pos hc]
    | false =>
      rw [searchUp_of_parent hc hp, List.find?_cons_of_neg (Bool.eq_false_iff.1 hc), ih]

/-- **The walk goes through the lineage.** -/
theorem walkUp_eq_foldl {σ : Type} (h : Hierarchy) (visit : σ → ClassId → σ) (s : σ)
    (c : ClassId) : h.walkUp visit s c = (h.lineage c).foldl visit s := by
  induction c using h.induction_on generalizing s with
  | root => rw [walkUp_root, lineage_root, List.foldl_cons, List.foldl_nil]
  | below c p hp ih => rw [walkUp_of_parent visit s hp, lineage_of_parent hp, List.foldl_cons, ih]

/-! ### The order -/

/-- **The nearest common ancestor is the least class above both.** -/
theorem below_commonAncestor_iff :
    h.Below (h.commonAncestor a b) c ↔ h.Below a c ∧ h.Below b c := by
  simp only [below_iff_mem_lineage]
  exact h.isLineage.mem_nearest (h.root_mem_lineage a) (h.root_mem_lineage b)

theorem below_commonAncestor_left (h : Hierarchy) (a b : ClassId) :
    h.Below a (h.commonAncestor a b) :=
  (below_commonAncestor_iff.1 .refl).1

theorem below_commonAncestor_right (h : Hierarchy) (a b : ClassId) :
    h.Below b (h.commonAncestor a b) :=
  (below_commonAncestor_iff.1 .refl).2

theorem commonAncestor_comm (h : Hierarchy) (a b : ClassId) :
    h.commonAncestor a b = h.commonAncestor b a := by
  have hle : ∀ a b, h.Below (h.commonAncestor a b) (h.commonAncestor b a) := fun a b =>
    below_commonAncestor_iff.2
      ⟨h.below_commonAncestor_right b a, h.below_commonAncestor_left b a⟩
  exact (hle a b).antisymm (hle b a)

theorem commonAncestor_self (h : Hierarchy) (a : ClassId) : h.commonAncestor a a = a :=
  (below_commonAncestor_iff.2 ⟨.refl, .refl⟩).antisymm (h.below_commonAncestor_left a a)

/-! ### Questions answered step by step -/

namespace Stepwise

/-- Search for `b` on the way up from `a`, unless it is the root. -/
def isSubtype (h : Hierarchy) (a b : ClassId) : Bool :=
  b == h.root || (h.searchUp (· == b) a).isSome

/-- All classes on the way up from `c`. -/
def kept (h : Hierarchy) (c : ClassId) : List ClassId := h.walkUp (fun seen x => x :: seen) [] c

/-- Keep the way up from `a`, and search the way up from `b` for a class that was kept. -/
def commonAncestor (h : Hierarchy) (a b : ClassId) : ClassId :=
  if a = b then a else (h.searchUp (kept h a).contains b).getD h.root

/-- Count the classes on the way up from the parent. -/
def depth (h : Hierarchy) (c : ClassId) : Nat :=
  match h.parent c with
  | none => 0
  | some p => h.walkUp (fun steps _ => steps + 1) 0 p

theorem isSubtype_eq (h : Hierarchy) (a b : ClassId) : isSubtype h a b = h.isSubtype a b := by
  rw [Bool.eq_iff_iff, isSubtype_iff_below, below_iff_mem_lineage, isSubtype, searchUp_eq_find?,
    Bool.or_eq_true, beq_iff_eq, List.find?_isSome]
  constructor
  · rintro (rfl | ⟨x, hx, hxb⟩)
    · exact h.root_mem_lineage a
    · exact beq_iff_eq.1 hxb ▸ hx
  · exact fun hb => Or.inr ⟨b, hb, beq_self_eq_true b⟩

theorem kept_eq_reverse (h : Hierarchy) (c : ClassId) : kept h c = (h.lineage c).reverse := by
  rw [kept, walkUp_eq_foldl, List.foldl_flip_cons_eq_append', List.append_nil]

theorem commonAncestor_eq (h : Hierarchy) (a b : ClassId) :
    commonAncestor h a b = h.commonAncestor a b := by
  rw [commonAncestor]
  split
  · next he => rw [← he, commonAncestor_self]
  · -- The lineage of `b` is searched here, and that of the first class there.
    have hkept : (kept h a).contains = (h.lineage a).contains := by
      rw [kept_eq_reverse]
      exact funext fun c => List.contains_reverse
    rw [h.commonAncestor_comm, Hierarchy.commonAncestor, hkept, searchUp_eq_find?]

theorem depth_eq (h : Hierarchy) (c : ClassId) : depth h c = h.depth c := by
  rw [depth]
  split
  · next hn => rw [parent_eq_none.1 hn, depth_root]
  · next p hp =>
    rw [walkUp_eq_foldl, List.foldl_add_const, Nat.one_mul, Nat.zero_add, length_lineage,
      depth_of_parent hp]

end Stepwise

/-- What is meant by saying that the classes form a tree: the comparison is an order in which what
lies above a class is a chain that ends at the root, the nearest common ancestor is the bound of
that order, and the depth says how far the root is. -/
structure FormTree (h : Hierarchy) : Prop where
  /-- A class is compared with those that going up from parent to parent leads to. -/
  subtype_iff : ∀ a b, h.isSubtype a b = true ↔ h.Below a b
  refl : ∀ a, h.isSubtype a a = true
  trans : ∀ a b c, h.isSubtype a b = true → h.isSubtype b c = true → h.isSubtype a c = true
  antisymm : ∀ a b, h.isSubtype a b = true → h.isSubtype b a = true → a = b
  root_greatest : ∀ a, h.isSubtype a h.root = true
  chain : ∀ a b c, h.isSubtype a b = true → h.isSubtype a c = true →
    h.isSubtype b c = true ∨ h.isSubtype c b = true
  common_least : ∀ a b c, h.isSubtype a c = true ∧ h.isSubtype b c = true ↔
    h.isSubtype (h.commonAncestor a b) c = true
  common_comm : ∀ a b, h.commonAncestor a b = h.commonAncestor b a
  /-- So many steps up is the root. -/
  ancestor_depth : ∀ a, h.ancestor? (h.depth a) a = some h.root
  depth_lt : ∀ a b, h.isSubtype a b = true → a ≠ b → h.depth b < h.depth a

theorem formTree (h : Hierarchy) : FormTree h where
  subtype_iff _ _ := isSubtype_iff_below
  refl _ := isSubtype_iff_below.2 .refl
  trans _ _ _ hab hbc := by
    simp only [isSubtype_iff_below] at *
    exact hab.trans hbc
  antisymm _ _ hab hba := by
    simp only [isSubtype_iff_below] at *
    exact hab.antisymm hba
  root_greatest a := isSubtype_iff_below.2 (below_root a)
  chain _ _ _ hab hac := by
    simp only [isSubtype_iff_below] at *
    exact hab.total hac
  common_least _ _ _ := by
    simp only [isSubtype_iff_below]
    exact below_commonAncestor_iff.symm
  common_comm := h.commonAncestor_comm
  ancestor_depth := h.ancestor?_depth
  depth_lt _ _ hab hne := (isSubtype_iff_below.1 hab).depth_lt hne

/-- **The classes form a tree**, those that were never declared included, and whoever goes up step
by step finds the same answers about it. -/
theorem classes_form_tree (h : Hierarchy) :
    FormTree h ∧
      (∀ a b, Stepwise.isSubtype h a b = h.isSubtype a b) ∧
      (∀ a b, Stepwise.commonAncestor h a b = h.commonAncestor a b) ∧
      ∀ c, Stepwise.depth h c = h.depth c :=
  ⟨h.formTree, Stepwise.isSubtype_eq h, Stepwise.commonAncestor_eq h, Stepwise.depth_eq h⟩

/-- The row was accepted, so the tree holds it. -/
theorem holds_lowestFirst : ((ofRoot ⟨0⟩).after lowestFirst).Holds lowestFirst :=
  (holds_ofRoot ⟨0⟩).accepts_iff.2 ((holds_ofRoot ⟨0⟩).accepts_iff.1.2 isForest_lowestFirst)

/-- The lowest of three classes in a row lies deeper than the highest one, and has nothing but the
root in common with a class that was never declared, whichever of them is gone up first. -/
theorem classes_form_tree_lowestFirst :
    let h := (ofRoot ⟨0⟩).after lowestFirst
    h.isSubtype ⟨3⟩ ⟨1⟩ = true ∧ h.depth ⟨1⟩ < h.depth ⟨3⟩ ∧
      h.commonAncestor ⟨7⟩ ⟨3⟩ = h.root ∧ Stepwise.commonAncestor h ⟨3⟩ ⟨7⟩ = h.root := by
  intro h
  have hl : h.Holds lowestFirst := holds_lowestFirst
  have htree := (classes_form_tree h).1
  have hstepwise := (classes_form_tree h).2.2.1
  have h32 : h.parent ⟨3⟩ = some ⟨2⟩ := hl.parent_of_declares (by simp [Declares, lowestFirst])
  have h21 : h.parent ⟨2⟩ = some ⟨1⟩ := hl.parent_of_declares (by simp [Declares, lowestFirst])
  have hsub : h.isSubtype ⟨3⟩ ⟨1⟩ = true := (htree.subtype_iff _ _).2 (.head h32 (.single h21))
  have hcommon : h.commonAncestor ⟨7⟩ ⟨3⟩ = h.root := by
    obtain ⟨h7, h3⟩ := (htree.common_least ⟨7⟩ ⟨3⟩ _).2 (htree.refl _)
    generalize h.commonAncestor ⟨7⟩ ⟨3⟩ = x at h7 h3
    by_contra hx
    rw [htree.subtype_iff, hl.below_iff hx] at h7 h3
    rcases h7.cases_head with rfl | ⟨p, hp, -⟩
    · rcases h3.cases_tail with he | ⟨p, -, hp⟩
      · cases he
      · simp [Declares, lowestFirst] at hp
    · simp [Declares, lowestFirst] at hp
  refine ⟨hsub, htree.depth_lt _ _ hsub (by decide), hcommon, ?_⟩
  rw [hstepwise, htree.common_comm, hcommon]

end Hierarchy
end IrAnalysis
