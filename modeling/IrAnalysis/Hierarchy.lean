/-
# The class hierarchy

A tree of classes.  Each declared class has one direct super class; a class
that was never declared hangs directly below the root.  Following `parent`
from any class therefore ends at the root, and that is a field of the type:
`declare` refuses whatever would break it.

`lineage c` is the class `c`, its parent, and so on up to the root.  All
questions about the tree are asked of it: `a` is a subtype of `b` when `b` is
in the lineage of `a`, and the nearest common ancestor is the first class of
one lineage that is in the other.
-/

import IrAnalysis.Item
import IrAnalysis.Table

namespace IrAnalysis

/-- The class directly above `c` in the tree with the given root and declared
super classes: nothing for the root, the root for an undeclared class. -/
def parentIn (root : ClassId) (supers : Table ClassId ClassId) (c : ClassId) : Option ClassId :=
  if c = root then none else some ((supers.get? c).getD root)

/-- A tree of classes. -/
structure Hierarchy where
  root : ClassId
  /-- The declared direct super class of each declared class. -/
  supers : Table ClassId ClassId
  /-- Going up never goes on forever. -/
  grounded : WellFounded fun p c => parentIn root supers c = some p

namespace Hierarchy

/-- The class directly above `c`, nothing for the root. -/
def parent (h : Hierarchy) (c : ClassId) : Option ClassId := parentIn h.root h.supers c

/-- The declared super class of `c`. -/
def declaredSuper (h : Hierarchy) (c : ClassId) : Option ClassId := h.supers.get? c

/-- The number of declared classes. -/
def size (h : Hierarchy) : Nat := h.supers.size

/-- `c`, its parent, and so on up to the root. -/
def lineage (h : Hierarchy) (c : ClassId) : List ClassId :=
  match _hp : h.parent c with
  | none => [c]
  | some p => c :: h.lineage p
termination_by h.grounded.wrap c
decreasing_by exact _hp

theorem parent_root (h : Hierarchy) : h.parent h.root = none := by
  simp [parent, parentIn]

theorem parent_eq_none {h : Hierarchy} {c : ClassId} : h.parent c = none ↔ c = h.root := by
  by_cases hc : c = h.root <;> simp [parent, parentIn, hc]

theorem lineage_root (h : Hierarchy) : h.lineage h.root = [h.root] := by
  rw [lineage]
  split
  · rfl
  · next p hp => rw [parent_root] at hp; cases hp

theorem lineage_of_parent {h : Hierarchy} {c p : ClassId} (hp : h.parent c = some p) :
    h.lineage c = c :: h.lineage p := by
  rw [lineage]
  split
  · next hn => rw [hp] at hn; cases hn
  · next q hq => rw [hp] at hq; cases hq; rfl

/-- Induction along the tree, from the root down. -/
theorem induction_on {h : Hierarchy} {motive : ClassId → Prop} (c : ClassId)
    (root : motive h.root) (below : ∀ c p, h.parent c = some p → motive p → motive c) :
    motive c := by
  refine h.grounded.induction (C := motive) c fun c ih => ?_
  cases hp : h.parent c with
  | none => rw [parent_eq_none.1 hp]; exact root
  | some p => exact below c p hp (ih p hp)

theorem mem_lineage_self (h : Hierarchy) (c : ClassId) : c ∈ h.lineage c := by
  cases hp : h.parent c with
  | none => rw [parent_eq_none.1 hp, lineage_root]; exact List.mem_singleton.2 rfl
  | some p => rw [lineage_of_parent hp]; exact List.mem_cons_self

theorem root_mem_lineage (h : Hierarchy) (c : ClassId) : h.root ∈ h.lineage c := by
  induction c using h.induction_on with
  | root => exact h.mem_lineage_self _
  | below c p hp ih => rw [lineage_of_parent hp]; exact List.mem_cons_of_mem _ ih

/-- `a` is `b` or lies below it. -/
def isSubtype (h : Hierarchy) (a b : ClassId) : Bool := (h.lineage a).contains b

/-- The nearest class above both (or equal to one of them). -/
def commonAncestor (h : Hierarchy) (a b : ClassId) : ClassId :=
  ((h.lineage a).find? (h.lineage b).contains).getD h.root

/-- The number of steps from `c` up to the root. -/
def depth (h : Hierarchy) (c : ClassId) : Nat := (h.lineage c).length - 1

/-- The tree that holds the root alone. -/
def ofRoot (root : ClassId) : Hierarchy where
  root := root
  supers := Table.empty
  grounded := by
    have hroot : Acc (fun p c => parentIn root Table.empty c = some p) root :=
      ⟨_, fun p hp => by simp [parentIn] at hp⟩
    refine ⟨fun c => ⟨_, fun p hp => ?_⟩⟩
    unfold parentIn at hp
    split at hp
    · cases hp
    · rw [Table.get?_empty] at hp
      cases hp
      exact hroot

/-- Why a declaration was refused. -/
inductive DeclareError
  | rootHasNoSuper (root : ClassId)
  | otherSuper (c declared wanted : ClassId)
  | cycle (c super : ClassId)

def DeclareError.message : DeclareError → String
  | rootHasNoSuper root => s!"the root {root} cannot have a super type"
  | otherSuper c declared wanted => s!"{c} already extends {declared}, cannot also extend {wanted}"
  | cycle c super => s!"{c} extending {super} would create a cycle"

/-- A super class whose lineage does not hold `c` can be put above `c`: the
lineages that do not hold `c` stay as they are, and that of `c` continues with
one of them. -/
theorem grounded_insert (h : Hierarchy) {c super : ClassId} (hc : c ∉ h.lineage super) :
    WellFounded fun p x => parentIn h.root (h.supers.insert c super) x = some p := by
  have step : ∀ x, x ≠ c → parentIn h.root (h.supers.insert c super) x = h.parent x := by
    intro x hx
    simp [parentIn, parent, Table.get?_insert, hx]
  have free : ∀ x, c ∉ h.lineage x →
      Acc (fun p x => parentIn h.root (h.supers.insert c super) x = some p) x := by
    intro x
    refine h.grounded.induction (C := fun x => c ∉ h.lineage x → Acc _ x) x fun x ih hx => ?_
    have hne : x ≠ c := fun e => hx (e ▸ h.mem_lineage_self x)
    refine ⟨_, fun p hp => ?_⟩
    rw [step x hne] at hp
    exact ih p hp fun hm => hx (by rw [lineage_of_parent hp]; exact List.mem_cons_of_mem _ hm)
  have self : Acc (fun p x => parentIn h.root (h.supers.insert c super) x = some p) c := by
    refine ⟨_, fun p hp => ?_⟩
    unfold parentIn at hp
    split at hp
    · cases hp
    · rw [Table.get?_insert, if_pos rfl] at hp
      cases hp
      exact free super hc
  refine ⟨fun x => h.grounded.induction (C := fun x => Acc _ x) x fun x ih => ?_⟩
  by_cases hx : x = c
  · rw [hx]; exact self
  · refine ⟨_, fun p hp => ?_⟩
    rw [step x hx] at hp
    exact ih p hp

/-- Declare `super` as the direct super class of `c`.  Saying again what was
declared before changes nothing. -/
def declare (h : Hierarchy) (c super : ClassId) : Except DeclareError Hierarchy :=
  if c = h.root then .error (.rootHasNoSuper c)
  else match h.declaredSuper c with
    | some declared =>
      if declared = super then .ok h else .error (.otherSuper c declared super)
    | none =>
      if hc : c ∈ h.lineage super then .error (.cycle c super)
      else .ok
        { root := h.root
          supers := h.supers.insert c super
          grounded := h.grounded_insert hc }

/-- Declare pairs of a class and its super class one after the other, up to the
first that is refused. -/
def declareAll (h : Hierarchy) : List (ClassId × ClassId) → Hierarchy × Except DeclareError Unit
  | [] => (h, .ok ())
  | (c, super) :: rest =>
    match h.declare c super with
    | .ok h' => h'.declareAll rest
    | .error e => (h, .error e)

/-- The length of the longest lineage that starts at a declared class or at an
undeclared one. -/
def height (h : Hierarchy) : Nat :=
  (h.supers.keys.map fun c => (h.lineage c).length).foldl max 2

end Hierarchy
end IrAnalysis
