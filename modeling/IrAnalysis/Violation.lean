/-
# Violations: what a caller must never do

A `Violation` says that a promise was broken on which the program rests, by
its caller or by its own invariants; nothing sensible can be done after it.
Refusals that leave everything usable are kept apart, with the operation that
refuses.
-/

import IrAnalysis.Graph.Instruction

namespace IrAnalysis

/-- An item together with its sort. -/
inductive Item
  | type (c : ClassId)
  | method (m : MethodId)
  | field (f : FieldId)
deriving DecidableEq

instance : ToString Item where
  toString
    | .type c => s!"type {c}"
    | .method m => s!"method {m}"
    | .field f => s!"field {f}"

/-- A broken promise. -/
inductive Violation
  /-- An array of no dimensions was used as a type. -/
  | degenerateArray
  /-- One lens was to send an item to two places. -/
  | mappedTwice (item : Item)
  /-- Items were to be moved on from a lens that does not lie below the one asked. -/
  | notAncestor
  /-- The assumptions for a call were asked at an instruction that is none. -/
  | notACall (instruction : Instruction)
  /-- A type was to be replaced by one that does not lie below it. -/
  | widening (v : ValueId) (before after : Ty)
  /-- The type of a value went down while types were climbing to their fixpoint. -/
  | descent (v : ValueId) (before after : Ty)
  /-- At the fixpoint these phis are at the bottom beside operands that are not. -/
  | leftAtBottom (phis : List ValueId)
  /-- A phi kept its type though the renaming changes it. -/
  | unscheduled

namespace Violation

def message : Violation → String
  | degenerateArray => "array types need at least one dimension"
  | mappedTwice item => s!"{item} mapped twice in one lens"
  | notAncestor => "applied lens is not an ancestor of the lens being queried"
  | notACall instruction => s!"assumptions looked up for non-call {instruction}"
  | widening v before after => s!"narrowing {v} from {before} to {after} widens it"
  | descent v before after => s!"phi type fixpoint moved {v} down from {before} to {after}"
  | leftAtBottom phis =>
    "phis left at bottom with non-bottom operands: [" ++ ", ".intercalate (phis.map toString) ++ "]"
  | unscheduled => "a phi whose type changes under the lens mapping was not scheduled"

end Violation

/-- A result, unless a promise was broken on the way to it. -/
abbrev Checked (α : Type) := Except Violation α

/-- A renaming of classes, or the violation that asking it for any class is. -/
abbrev Renaming := Checked (ClassId → ClassId)

end IrAnalysis
