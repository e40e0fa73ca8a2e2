/-
# Declaring classes one after the other

A declaration puts a class below its direct super class.  It is looked at in the tree that there
is so far, where a class that is still to be declared hangs below the root, so whether it is
accepted seems to depend on what was declared before it.  It does not: a list of declarations is
accepted as a whole exactly if the pairs of the list describe a forest (`IsForest`), which does not
look at their order.

The tree that accepted them holds the pairs and nothing else (`Hierarchy.Holds`).  In it a class
other than the root lies above another exactly if the pairs lead there (`Holds.below_iff`), so a
declaration closes a cycle of the tree exactly if it closes one of the pairs
(`Holds.not_refuses`).  A refused declaration changes nothing, so a run with refusals
leaves the tree that the accepted declarations alone leave (`exists_accepted`), and going up from a
class ends at the root after one step for each of them at most, and one more
(`Holds.depth_le`).
-/

import IrAnalysis.Proofs.ClassTree
import Mathlib.Data.List.Perm.Subperm
import Mathlib.Tactic.ByContra
import Mathlib.Tactic.SplitIfs

namespace IrAnalysis

/-- The class is declared with the direct super class by a pair of the list. -/
def Declares (l : List (ClassId × ClassId)) (c super : ClassId) : Prop := (c, super) ∈ l

/-- **The pairs of a class and its super class describe a forest below the root.** -/
structure IsForest (root : ClassId) (l : List (ClassId × ClassId)) : Prop where
  root_free : ∀ super, ¬ Declares l root super
  one_super : ∀ c super super', Declares l c super → Declares l c super' → super = super'
  acyclic : ∀ c, ¬ Relation.TransGen (Declares l) c c

theorem IsForest.of_subset {root : ClassId} {l l' : List (ClassId × ClassId)}
    (h : IsForest root l) (hl : ∀ p ∈ l', p ∈ l) : IsForest root l' where
  root_free super hs := h.root_free super (hl _ hs)
  one_super c super super' hs hs' := h.one_super c super super' (hl _ hs) (hl _ hs')
  acyclic c hc := h.acyclic c (Relation.TransGen.mono (fun x s => hl (x, s)) c c hc)

/-- A number that goes down with each pair goes down on the way along them. -/
theorem lt_of_transGen {l : List (ClassId × ClassId)} {f : ClassId → Nat}
    (hf : ∀ x s, Declares l x s → f s < f x) {c d : ClassId}
    (hcd : Relation.TransGen (Declares l) c d) : f d < f c := by
  induction hcd with
  | single hs => exact hf _ _ hs
  | tail _ hs ih => exact Nat.lt_trans (hf _ _ hs) ih

namespace Hierarchy

variable {h h' : Hierarchy} {c d p super root : ClassId} {l rest : List (ClassId × ClassId)}

/-- The tree after a declaration, refused or not, and the answer. -/
def attempt (h : Hierarchy) (p : ClassId × ClassId) : Hierarchy × Except DeclareError Unit :=
  match h.declare p.1 p.2 with
  | .ok h' => (h', .ok ())
  | .error e => (h, .error e)

/-- The tree after all declarations of a list, refused or not, and the answer to each. -/
def attemptAll (h : Hierarchy) :
    List (ClassId × ClassId) → Hierarchy × List (Except DeclareError Unit)
  | [] => (h, [])
  | p :: l =>
    let rest := (h.attempt p).1.attemptAll l
    (rest.1, (h.attempt p).2 :: rest.2)

/-- The tree after all declarations of a list. -/
def after (h : Hierarchy) (l : List (ClassId × ClassId)) : Hierarchy := (h.attemptAll l).1

/-- No declaration of the list is refused. -/
def Accepts (h : Hierarchy) (l : List (ClassId × ClassId)) : Prop :=
  ∀ answer ∈ (h.attemptAll l).2, answer = .ok ()

/-- The class `n` steps above `c`. -/
def ancestor? (h : Hierarchy) : Nat → ClassId → Option ClassId
  | 0, c => some c
  | n + 1, c => (h.parent c).bind (h.ancestor? n)

/-! ### One declaration -/

/-- What a tree refuses: a super class for the root, a second one for a class, and one that lies
below the class. -/
def Refuses (h : Hierarchy) (c super : ClassId) : Prop :=
  c = h.root ∨ (∃ d, h.declaredSuper c = some d ∧ d ≠ super) ∨
    (h.declaredSuper c = none ∧ h.Below super c)

theorem attempt_of_declared (hc : c ≠ h.root) (hd : h.declaredSuper c = some d) :
    h.attempt (c, super) =
      (h, if d = super then .ok () else .error (.otherSuper c d super)) := by
  simp only [attempt, declare, if_neg hc, hd]
  by_cases hs : d = super <;> simp only [hs, if_true, if_false]

theorem attempt_of_below (hc : c ≠ h.root) (hd : h.declaredSuper c = none)
    (hbelow : h.Below super c) : h.attempt (c, super) = (h, .error (.cycle c super)) := by
  have hmem := below_iff_mem_lineage.1 hbelow
  simp only [attempt, declare, if_neg hc, hd, dif_pos hmem]

/-- What an accepted declaration changes. -/
theorem attempt_of_not_below (hc : c ≠ h.root) (hd : h.declaredSuper c = none)
    (hbelow : ¬ h.Below super c) : ∃ h' : Hierarchy, h.attempt (c, super) = (h', .ok ()) ∧
      h'.root = h.root ∧
      ∀ x, h'.declaredSuper x = if x = c then some super else h.declaredSuper x := by
  have hmem := mt below_iff_mem_lineage.2 hbelow
  refine ⟨⟨h.root, h.supers.insert c super, h.grounded_insert hmem⟩, ?_, rfl, fun x => ?_⟩
  · simp only [attempt, declare, if_neg hc, hd, dif_neg hmem]
  · exact Table.get?_insert h.supers c super x

/-- **A declaration is refused and changes nothing, or it is accepted and then its class has the
super class.** -/
theorem attempt_outcome (h : Hierarchy) (c super : ClassId) :
    (h.Refuses c super ∧ ∃ e, h.attempt (c, super) = (h, .error e)) ∨
      (¬ h.Refuses c super ∧ ∃ h' : Hierarchy, h.attempt (c, super) = (h', .ok ()) ∧
        h'.root = h.root ∧
        ∀ x, h'.declaredSuper x = if x = c then some super else h.declaredSuper x) := by
  by_cases hroot : c = h.root
  · refine Or.inl ⟨Or.inl hroot, .rootHasNoSuper c, ?_⟩
    simp only [attempt, declare, if_pos hroot]
  cases hd : h.declaredSuper c with
  | some d =>
    have hon : h.attempt (c, super) = _ := attempt_of_declared hroot hd
    by_cases hs : d = super
    · rw [if_pos hs] at hon
      refine Or.inr ⟨?_, h, hon, rfl, fun x => ?_⟩
      · simp [Refuses, hroot, hd, hs]
      · split_ifs with hx
        · rw [hx, hd, hs]
        · rfl
    · rw [if_neg hs] at hon
      exact Or.inl ⟨Or.inr (Or.inl ⟨d, hd, hs⟩), _, hon⟩
  | none =>
    by_cases hbelow : h.Below super c
    · exact Or.inl ⟨Or.inr (Or.inr ⟨hd, hbelow⟩), _, attempt_of_below hroot hd hbelow⟩
    · refine Or.inr ⟨?_, attempt_of_not_below hroot hd hbelow⟩
      simp [Refuses, hroot, hd, hbelow]

theorem attempt_of_error {x : ClassId × ClassId} {e : DeclareError}
    (he : (h.attempt x).2 = .error e) : (h.attempt x).1 = h := by
  rcases h.attempt_outcome x.1 x.2 with ⟨-, e', hon⟩ | ⟨-, h', hon, -⟩
  · exact congrArg Prod.fst hon
  · exact nomatch he.symm.trans (congrArg Prod.snd hon)

theorem root_attempt (h : Hierarchy) (p : ClassId × ClassId) : (h.attempt p).1.root = h.root := by
  rcases h.attempt_outcome p.1 p.2 with ⟨-, e, he⟩ | ⟨-, h', hon, hroot, -⟩
  · exact congrArg (·.1.root) he
  · exact (congrArg (·.1.root) hon).trans hroot

/-! ### The tree and the pairs -/

/-- The tree declares what the pairs say, and nothing else. -/
structure Holds (h : Hierarchy) (l : List (ClassId × ClassId)) : Prop where
  declared : ∀ c super, h.declaredSuper c = some super ↔ Declares l c super
  root_free : ∀ super, ¬ Declares l h.root super

theorem holds_ofRoot (root : ClassId) : (ofRoot root).Holds [] where
  declared _ _ := iff_of_false nofun List.not_mem_nil
  root_free _ := List.not_mem_nil

theorem parent_of_declaredSuper (hc : c ≠ h.root) (hd : h.declaredSuper c = some p) :
    h.parent c = some p := by
  have hget : h.supers.get? c = some p := hd
  rw [parent, parentIn, if_neg hc, hget, Option.getD_some]

/-- A class that was not declared hangs below the root. -/
theorem declaredSuper_of_parent (hp : h.parent c = some p) :
    h.declaredSuper c = some p ∨ p = h.root := by
  rw [parent, parentIn] at hp
  split_ifs at hp
  cases hd : h.supers.get? c with
  | none => exact Or.inr (by simpa [hd] using hp.symm)
  | some s => exact Or.inl (by simpa [declaredSuper, hd] using hp)

namespace Holds

theorem parent_of_declares (hl : h.Holds l) (hs : Declares l c super) :
    h.parent c = some super := by
  refine parent_of_declaredSuper (fun he => hl.root_free super (he ▸ hs)) ?_
  exact (hl.declared c super).2 hs

/-- **A class other than the root lies above another exactly if the pairs lead there.** -/
theorem below_iff (hl : h.Holds l) (hc : c ≠ h.root) :
    h.Below d c ↔ Relation.ReflTransGen (Declares l) d c := by
  constructor
  · intro hd
    induction hd using Relation.ReflTransGen.head_induction_on with
    | refl => exact .refl
    | @head x p hp hpc ih =>
      rcases declaredSuper_of_parent hp with hs | hroot
      · exact .head ((hl.declared x p).1 hs) ih
      · -- Nothing lies above the root.
        exact absurd (eq_root_of_root_below (hroot ▸ hpc)) hc
  · exact Relation.ReflTransGen.mono (fun x s hs => hl.parent_of_declares hs) d c

/-- **What a tree holds is a forest.** -/
theorem isForest (hl : h.Holds l) : IsForest h.root l where
  root_free := hl.root_free
  one_super c super super' hs hs' := by
    rw [← hl.declared] at hs hs'
    exact Option.some.inj (hs.symm.trans hs')
  acyclic _ hc := by
    refine Nat.lt_irrefl _ (lt_of_transGen (f := h.depth) (fun x s hs => ?_) hc)
    rw [depth_of_parent (hl.parent_of_declares hs)]
    exact Nat.lt_succ_self _

/-- **What belongs to a forest is not refused**, whatever else of the forest was declared before. -/
theorem not_refuses (hl : h.Holds l) (hf : IsForest h.root (l ++ (c, super) :: rest)) :
    ¬ h.Refuses c super := by
  have hself : Declares (l ++ (c, super) :: rest) c super :=
    List.mem_append_right l List.mem_cons_self
  have hold : ∀ x s, Declares l x s → Declares (l ++ (c, super) :: rest) x s :=
    fun _ _ => List.mem_append_left _
  have hc : c ≠ h.root := fun he => hf.root_free super (he ▸ hself)
  rintro (he | ⟨d, hd, hne⟩ | ⟨-, hbelow⟩)
  · exact hc he
  · exact hne (hf.one_super c d super (hold c d ((hl.declared c d).1 hd)) hself)
  · have hback := Relation.ReflTransGen.mono hold super c ((hl.below_iff hc).1 hbelow)
    exact hf.acyclic c (.head' hself hback)

/-- An accepted declaration is held beside the others. -/
theorem attempt (hl : h.Holds l) (hnot : ¬ h.Refuses c super) (hroot : h'.root = h.root)
    (hd : ∀ x, h'.declaredSuper x = if x = c then some super else h.declaredSuper x) :
    h'.Holds (l ++ [(c, super)]) where
  declared x s := by
    rw [hd, Declares, List.mem_append, List.mem_singleton, Prod.mk.injEq]
    split_ifs with hx
    · constructor
      · intro hs
        exact Or.inr ⟨hx, (Option.some.inj hs).symm⟩
      · rintro (hs | ⟨-, rfl⟩)
        · have hold := (hl.declared c s).2 (hx ▸ hs)
          by_contra hne
          exact hnot (Or.inr (Or.inl ⟨s, hold, fun he => hne (congrArg some he.symm)⟩))
        · rfl
    · rw [hl.declared]
      simp [Declares, hx]
  root_free s hs := by
    rw [hroot] at hs
    rcases List.mem_append.1 hs with hs | hs
    · exact hl.root_free s hs
    · exact hnot (Or.inl (congrArg Prod.fst (List.mem_singleton.1 hs)).symm)

end Holds

/-! ### Runs of declarations -/

theorem after_cons (h : Hierarchy) (x : ClassId × ClassId) (l : List (ClassId × ClassId)) :
    h.after (x :: l) = (h.attempt x).1.after l := rfl

theorem accepts_nil (h : Hierarchy) : h.Accepts [] := fun _ ha => absurd ha List.not_mem_nil

theorem accepts_cons {x : ClassId × ClassId} :
    h.Accepts (x :: l) ↔ (h.attempt x).2 = .ok () ∧ (h.attempt x).1.Accepts l :=
  List.forall_mem_cons

theorem root_after (h : Hierarchy) (l : List (ClassId × ClassId)) : (h.after l).root = h.root := by
  induction l generalizing h with
  | nil => rfl
  | cons x l ih => rw [after_cons, ih, root_attempt]

/-- The last declaration of a list is looked at in the tree that the others leave. -/
theorem attemptAll_concat (h : Hierarchy) (l : List (ClassId × ClassId)) (x : ClassId × ClassId) :
    h.attemptAll (l ++ [x]) =
      (((h.after l).attempt x).1, (h.attemptAll l).2 ++ [((h.after l).attempt x).2]) := by
  induction l generalizing h with
  | nil => rfl
  | cons y l ih =>
    rw [List.cons_append, attemptAll, ih, after_cons]
    rfl

/-- **A tree accepts a list exactly if it makes a forest with what the tree holds**, and then it
holds the list as well. -/
theorem Holds.accepts_iff (hl : h.Holds l) :
    (h.Accepts rest ↔ IsForest h.root (l ++ rest)) ∧
      (h.Accepts rest → (h.after rest).Holds (l ++ rest)) := by
  induction rest generalizing h l with
  | nil =>
    rw [List.append_nil]
    exact ⟨iff_of_true h.accepts_nil hl.isForest, fun _ => hl⟩
  | cons x rest ih =>
    rw [accepts_cons, after_cons]
    rcases h.attempt_outcome x.1 x.2 with ⟨href, e, hon⟩ | ⟨hnot, h', hon, hroot, hd⟩
    · have hrefused : ¬ ((h.attempt x).2 = .ok () ∧ (h.attempt x).1.Accepts rest) := by
        rw [hon]
        exact fun hall => nomatch hall.1
      refine ⟨iff_of_false hrefused fun hf => hl.not_refuses hf href, fun hall => ?_⟩
      exact absurd hall hrefused
    · have hmore := ih (hl.attempt hnot hroot hd)
      rw [List.append_assoc, List.singleton_append, hroot] at hmore
      rw [hon, eq_self, true_and]
      exact hmore

/-- **Refusals leave no trace**: the accepted declarations alone leave the same tree. -/
theorem exists_accepted (h : Hierarchy) (l : List (ClassId × ClassId)) :
    ∃ l', l'.Sublist l ∧ h.Accepts l' ∧ h.after l' = h.after l := by
  induction l generalizing h with
  | nil => exact ⟨[], List.Sublist.refl _, h.accepts_nil, rfl⟩
  | cons x l ih =>
    rw [after_cons]
    rcases h.attempt_outcome x.1 x.2 with ⟨-, e, hon⟩ | ⟨-, h', hon, -⟩
    · obtain ⟨l', hsub, hall, hafter⟩ := ih h
      rw [hon]
      exact ⟨l', hsub.cons x, hall, hafter⟩
    · obtain ⟨l', hsub, hall, hafter⟩ := ih h'
      rw [hon]
      refine ⟨x :: l', hsub.cons_cons x, accepts_cons.2 ?_, ?_⟩
      · rw [hon]
        exact ⟨rfl, hall⟩
      · rw [after_cons, hon]
        exact hafter

/-! ### Going up -/

theorem ancestor?_depth (h : Hierarchy) (c : ClassId) :
    h.ancestor? (h.depth c) c = some h.root := by
  induction c using h.induction_on with
  | root =>
    rw [depth_root]
    rfl
  | below c p hp ih =>
    rw [depth_of_parent hp, ancestor?, hp]
    exact ih

theorem nodup_lineage (h : Hierarchy) (c : ClassId) : (h.lineage c).Nodup := by
  induction c using h.induction_on with
  | root =>
    rw [lineage_root]
    exact List.pairwise_singleton _ _
  | below c p hp ih =>
    rw [lineage_of_parent hp, List.nodup_cons]
    refine ⟨fun hmem => ?_, ih⟩
    have hle := (h.isLineage.suffix hmem).length_le
    rw [lineage_of_parent hp, List.length_cons] at hle
    exact Nat.not_succ_le_self _ hle

/-- All classes of a lineage are declared but the root and one that hangs directly below it. -/
theorem Holds.length_lineage_le (hl : h.Holds l) (c : ClassId) :
    (h.lineage c).length ≤ ((h.lineage c).filter (· ∈ l.map Prod.fst)).length + 2 := by
  induction c using h.induction_on with
  | root =>
    rw [lineage_root, List.length_singleton]
    omega
  | below c p hp ih =>
    rw [lineage_of_parent hp, List.length_cons]
    rcases declaredSuper_of_parent hp with hs | hroot
    · have hmem : c ∈ l.map Prod.fst := List.mem_map.2 ⟨(c, p), (hl.declared c p).1 hs, rfl⟩
      rw [List.filter_cons_of_pos (by simpa using hmem), List.length_cons]
      omega
    · rw [hroot, lineage_root, List.length_singleton]
      omega

/-- **A class lies no deeper than there are declarations**, or one step deeper if it was not
declared itself. -/
theorem Holds.depth_le (hl : h.Holds l) (c : ClassId) : h.depth c ≤ l.length + 1 := by
  have hsub : (h.lineage c).filter (· ∈ l.map Prod.fst) ⊆ l.map Prod.fst := by
    intro x hx
    simpa using (List.mem_filter.1 hx).2
  have hle := (List.Nodup.subperm ((h.nodup_lineage c).filter _) hsub).length_le
  have hlen := hl.length_lineage_le c
  rw [h.length_lineage] at hlen
  rw [List.length_map] at hle
  omega

/-- **Exactly forests are accepted**, in every order and with the same super classes; whatever was
declared, the root is reached in no more steps than there were declarations and one, and a refused
declaration changes nothing. -/
theorem declarations_accepted (root : ClassId) (l : List (ClassId × ClassId)) :
    let start := ofRoot root
    (start.Accepts l ↔ IsForest root l) ∧
      (start.Accepts l → ∀ l', l'.Perm l → start.Accepts l' ∧
        ∀ c, (start.after l').declaredSuper c = (start.after l).declaredSuper c) ∧
      (∀ c, ∃ n ≤ l.length + 1, (start.after l).ancestor? n c = some root) ∧
      ∀ x e, (start.attemptAll (l ++ [x])).2.getLast? = some (.error e) →
        start.after (l ++ [x]) = start.after l := by
  intro start
  have hempty := holds_ofRoot root
  have hiff : ∀ {l'}, start.Accepts l' ↔ IsForest root l' := hempty.accepts_iff.1
  refine ⟨hiff, fun hall l' hperm => ?_, fun c => ?_, fun x e he => ?_⟩
  · have hall' := hiff.2 ((hiff.1 hall).of_subset fun x hx => hperm.mem_iff.1 hx)
    have hl := hempty.accepts_iff.2 hall
    have hl' := hempty.accepts_iff.2 hall'
    refine ⟨hall', fun c => Option.ext fun s => ?_⟩
    exact (hl'.declared c s).trans (hperm.mem_iff.trans (hl.declared c s).symm)
  · obtain ⟨l', hsub, hall, hafter⟩ := start.exists_accepted l
    have hdepth := (hempty.accepts_iff.2 hall).depth_le c
    have htop := (start.after l').ancestor?_depth c
    rw [root_after] at htop
    rw [← hafter]
    exact ⟨_, Nat.le_trans hdepth (Nat.succ_le_succ hsub.length_le), htop⟩
  · rw [attemptAll_concat, List.getLast?_concat] at he
    rw [after, attemptAll_concat]
    exact attempt_of_error (Option.some.inj he)

/-- Three classes in a row, the lowest one declared first. -/
def lowestFirst : List (ClassId × ClassId) := [(⟨3⟩, ⟨2⟩), (⟨2⟩, ⟨1⟩)]

theorem isForest_lowestFirst : IsForest ⟨0⟩ lowestFirst where
  root_free super := by simp [Declares, lowestFirst]
  one_super c super super' := by
    simp only [Declares, lowestFirst, List.mem_cons, Prod.mk.injEq, List.not_mem_nil, or_false]
    rintro (⟨rfl, rfl⟩ | ⟨rfl, rfl⟩) (⟨he, rfl⟩ | ⟨he, rfl⟩)
    · rfl
    · cases he
    · cases he
    · rfl
  acyclic _ hc := by
    refine Nat.lt_irrefl _ (lt_of_transGen (f := ClassId.index) (fun x s hs => ?_) hc)
    simp only [Declares, lowestFirst, List.mem_cons, Prod.mk.injEq, List.not_mem_nil,
      or_false] at hs
    rcases hs with ⟨rfl, rfl⟩ | ⟨rfl, rfl⟩ <;> decide

/-- With the highest class declared below the lowest one the row is a ring. -/
theorem not_isForest_ring : ¬ IsForest ⟨0⟩ (lowestFirst ++ [(⟨1⟩, ⟨3⟩)]) := by
  intro hf
  have h32 : Declares (lowestFirst ++ [(⟨1⟩, ⟨3⟩)]) ⟨3⟩ ⟨2⟩ := by simp [Declares, lowestFirst]
  have h21 : Declares (lowestFirst ++ [(⟨1⟩, ⟨3⟩)]) ⟨2⟩ ⟨1⟩ := by simp [Declares, lowestFirst]
  have h13 : Declares (lowestFirst ++ [(⟨1⟩, ⟨3⟩)]) ⟨1⟩ ⟨3⟩ := by simp [Declares, lowestFirst]
  exact hf.acyclic ⟨3⟩ (.head h32 (.head h21 (.single h13)))

/-- The row is accepted from the lowest class up and from the highest one down, and the ring is
not. -/
theorem declarations_accepted_lowestFirst :
    (ofRoot ⟨0⟩).Accepts lowestFirst ∧ (ofRoot ⟨0⟩).Accepts lowestFirst.reverse ∧
      (∀ c, ((ofRoot ⟨0⟩).after lowestFirst.reverse).declaredSuper c =
        ((ofRoot ⟨0⟩).after lowestFirst).declaredSuper c) ∧
      ¬ (ofRoot ⟨0⟩).Accepts (lowestFirst ++ [(⟨1⟩, ⟨3⟩)]) := by
  have hrow := declarations_accepted ⟨0⟩ lowestFirst
  have hall := hrow.1.2 isForest_lowestFirst
  have hback := hrow.2.1 hall _ (List.reverse_perm lowestFirst)
  exact ⟨hall, hback.1, hback.2,
    mt (declarations_accepted ⟨0⟩ (lowestFirst ++ [(⟨1⟩, ⟨3⟩)])).1.1 not_isForest_ring⟩

end Hierarchy
end IrAnalysis
