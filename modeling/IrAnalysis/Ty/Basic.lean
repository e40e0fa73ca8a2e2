/-
# Types of values

A `Ty` is what is known about the value of a variable: nothing yet
(`bottom`), anything (`top`), a primitive kind, the `null` reference, or a
reference of a `Shape` (a class or an array) together with its `Nullness`.

A reference that is certainly null keeps no useful shape, and one of nullness
`never` is no value at all: `normalize` writes them `null` and `bottom`.  Types
are compared as written; the order and the bounds of
`IrAnalysis.Ty.Lattice` are those of the normal forms.

An array of no dimensions is not a type of any value.  It can be written down,
and `isDegenerate` tells it.
-/

import IrAnalysis.Hierarchy
import IrAnalysis.Nullness
import IrAnalysis.Primitive

namespace IrAnalysis

/-- What an array holds in its innermost dimension. -/
inductive Element
  | prim (p : Primitive)
  | cls (c : ClassId)
deriving DecidableEq

instance : ToString Element where
  toString
    | .prim p => toString p
    | .cls c => toString c

/-- What a reference points to, when it is not null. -/
inductive Shape
  | cls (c : ClassId)
  | array (e : Element) (dims : Nat)
deriving DecidableEq

/-- What is known about the type of a value. -/
inductive Ty
  | bottom
  | top
  | prim (p : Primitive)
  | null
  | ref (shape : Shape) (nullness : Nullness)
deriving DecidableEq

namespace Shape

/-- An array of no dimensions. -/
def isDegenerate : Shape → Bool
  | cls _ => false
  | array _ dims => dims == 0

/-- The class named in a shape. -/
def classes : Shape → List ClassId
  | cls c => [c]
  | array (.cls c) _ => [c]
  | array (.prim _) _ => []

instance : ToString Shape where
  toString
    | cls c => toString c
    | array e dims => toString e ++ String.join (List.replicate dims "[]")

end Shape

namespace Ty

/-- The form that says the same with the least: `null` for a reference that is
certainly null, `bottom` for one that cannot exist. -/
def normalize : Ty → Ty
  | ref _ .null => null
  | ref _ .never => bottom
  | t => t

/-- The type is written in its least form. -/
def IsNormal (t : Ty) : Prop := t.normalize = t

instance (t : Ty) : Decidable t.IsNormal := inferInstanceAs (Decidable (_ = _))

theorem normalize_normalize (t : Ty) : t.normalize.normalize = t.normalize := by
  rcases t with _ | _ | _ | _ | ⟨_, n⟩
  case ref => cases n <;> rfl
  all_goals rfl

theorem isNormal_normalize (t : Ty) : t.normalize.IsNormal := normalize_normalize t

theorem isNormal_ref {s : Shape} {n : Nullness} :
    (ref s n).IsNormal ↔ n = .nonNull ∨ n = .maybe := by
  cases n <;> simp [IsNormal, normalize]

/-- A reference to an array of no dimensions. -/
def isDegenerate : Ty → Bool
  | ref s _ => s.isDegenerate
  | _ => false

/-- Arrays have dimensions. -/
def IsProper (t : Ty) : Prop := t.isDegenerate = false

instance (t : Ty) : Decidable t.IsProper := inferInstanceAs (Decidable (_ = _))

theorem IsProper.normalize {t : Ty} (h : t.IsProper) : t.normalize.IsProper := by
  rcases t with _ | _ | _ | _ | ⟨s, n⟩
  case ref =>
    cases n
    · rfl
    · exact h
    · exact h
    · rfl
  all_goals rfl

/-- A reference of the shape, in normal form. -/
def ofShape (s : Shape) (n : Nullness) : Ty := (ref s n).normalize

/-- A reference to an instance of the class, in normal form. -/
def ofClass (c : ClassId) (n : Nullness) : Ty := ofShape (.cls c) n

def isBottom : Ty → Bool
  | bottom => true
  | _ => false

def isTop : Ty → Bool
  | top => true
  | _ => false

def isPrimitive : Ty → Bool
  | prim _ => true
  | _ => false

def isReference : Ty → Bool
  | null | ref _ _ => true
  | _ => false

/-- The class of a reference that is no array. -/
def class? : Ty → Option ClassId
  | ref (.cls c) _ => some c
  | _ => none

/-- Whether a value of the type may be null.  Anything may be, a primitive
value never is. -/
def nullness : Ty → Nullness
  | bottom => .never
  | top => .maybe
  | prim _ => .nonNull
  | null => .null
  | ref _ n => n

/-- The classes named in a type. -/
def classes : Ty → List ClassId
  | ref s _ => s.classes
  | _ => []

instance : ToString Ty where
  toString
    | bottom => "BOTTOM"
    | top => "TOP"
    | prim p => toString p
    | null => "null"
    | ref s n => s!"{n} {s}"

end Ty
end IrAnalysis
