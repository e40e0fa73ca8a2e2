/-
# Primitive kinds

The kinds that fit an `int` lie below it; `int`, `float`, `long` and `double`
are unrelated.  Two kinds therefore have a join exactly when they are equal or
both fit an `int`, and a meet exactly when they are equal or one of them is
`int` and the other fits it.
-/

namespace IrAnalysis

/-- The kind of a value that is no reference. -/
inductive Primitive
  | boolean
  | byte
  | short
  | char
  | int
  | float
  | long
  | double
deriving DecidableEq

namespace Primitive

/-- The eight kinds, in their customary order. -/
def all : List Primitive := [boolean, byte, short, char, int, float, long, double]

theorem mem_all (p : Primitive) : p ∈ all := by
  cases p <;> decide

/-- The customary order of the kinds: the place in `all`. -/
def compare (p q : Primitive) : Ordering := Ord.compare (all.idxOf p) (all.idxOf q)

/-- Values of the kind widen to `int`. -/
def fitsInt : Primitive → Bool
  | boolean | byte | short | char | int => true
  | float | long | double => false

/-- Values of the kind take two registers. -/
def isWide : Primitive → Bool
  | long | double => true
  | _ => false

/-- The least kind that covers both, if there is one. -/
def join (p q : Primitive) : Option Primitive :=
  if p = q then some p
  else if p.fitsInt && q.fitsInt then some int
  else none

/-- The greatest kind that both cover, if there is one. -/
def meet (p q : Primitive) : Option Primitive :=
  if p = q then some p
  else if p = int && q.fitsInt then some q
  else if q = int && p.fitsInt then some p
  else none

theorem join_comm (p q : Primitive) : join p q = join q p := by
  cases p <;> cases q <;> rfl

theorem meet_comm (p q : Primitive) : meet p q = meet q p := by
  cases p <;> cases q <;> rfl

theorem join_self (p : Primitive) : join p p = some p := by
  simp [join]

theorem meet_self (p : Primitive) : meet p p = some p := by
  simp [meet]

def name : Primitive → String
  | boolean => "boolean"
  | byte => "byte"
  | short => "short"
  | char => "char"
  | int => "int"
  | float => "float"
  | long => "long"
  | double => "double"

instance : ToString Primitive := ⟨name⟩

end Primitive
end IrAnalysis
