/-
# The symbol table: what the numbers of items stand for

An `Interner` gives each descriptor a number, in order of first mention, and
the same number ever after.  It is two tables and a counter: one table leads
from a descriptor to its number, the other leads back, and the counter is the
number that the next new descriptor gets.  The symbol table interns the names
of classes, and methods and fields by the class that declares them and by name,
each sort by itself.

Main statements: `intern_of_known` (a descriptor that has a number keeps it, and
nothing changes) and `intern_of_new` (what is written down of a new one).
-/

import IrAnalysis.Item
import IrAnalysis.Table

namespace IrAnalysis

/-- Descriptors with their numbers. -/
structure Interner (α : Type) where
  /-- The number of a descriptor. -/
  numbers : Table α Nat
  /-- The descriptor with a number. -/
  items : Table Nat α
  /-- The number that is given next. -/
  next : Nat

namespace Interner

variable {α : Type}

def empty : Interner α := ⟨.empty, .empty, 0⟩

/-- How many descriptors have a number. -/
def size (t : Interner α) : Nat := t.numbers.size

/-- The descriptor with the given number. -/
def get? (t : Interner α) (i : Nat) : Option α := t.items.get? i

/-- The counter is 32 bits wide: after the last number it starts again at 0. -/
def following (i : Nat) : Nat := (i + 1) % UInt32.size

theorem following_of_lt {i : Nat} (h : i + 1 < UInt32.size) : following i = i + 1 :=
  Nat.mod_eq_of_lt h

variable [DecidableEq α]

/-- The number of `a`.  If it has none, it gets the next one, and either table
is told. -/
def enter (t : Interner α) (a : α) : Interner α × Nat :=
  match t.numbers.get? a with
  | some i => (t, i)
  | none =>
    ({ numbers := t.numbers.insert a t.next
       items := t.items.insert t.next a
       next := following t.next }, t.next)

/-- The number of `a`, which is entered only if it is not found. -/
def intern (t : Interner α) (a : α) : Interner α × Nat :=
  match t.numbers.get? a with
  | some i => (t, i)
  | none => t.enter a

variable {t : Interner α} {a : α} {i : Nat}

/-- **What has a number keeps it, and nothing changes.** -/
theorem intern_of_known (h : t.numbers.get? a = some i) : t.intern a = (t, i) := by
  rw [intern, h]

/-- **What is new gets the next number.** -/
theorem intern_of_new (h : t.numbers.get? a = none) :
    t.intern a = (⟨t.numbers.insert a t.next, t.items.insert t.next a, following t.next⟩,
      t.next) := by
  simp only [intern, enter, h]

end Interner

/-- What tells one method from another. -/
structure MethodSignature where
  holder : ClassId
  name : String
  proto : String
deriving DecidableEq

/-- What tells one field from another. -/
structure FieldSignature where
  holder : ClassId
  name : String
deriving DecidableEq

/-- The names behind the numbers of classes, methods and fields. -/
structure SymbolTable where
  classes : Interner String
  methods : Interner MethodSignature
  fields : Interner FieldSignature

namespace SymbolTable

def empty : SymbolTable := ⟨.empty, .empty, .empty⟩

def internClass (t : SymbolTable) (name : String) : SymbolTable × ClassId :=
  let (classes, i) := t.classes.intern name
  ({ t with classes }, ⟨i⟩)

def internMethod (t : SymbolTable) (s : MethodSignature) : SymbolTable × MethodId :=
  let (methods, i) := t.methods.intern s
  ({ t with methods }, ⟨i⟩)

def internField (t : SymbolTable) (s : FieldSignature) : SymbolTable × FieldId :=
  let (fields, i) := t.fields.intern s
  ({ t with fields }, ⟨i⟩)

def className? (t : SymbolTable) (c : ClassId) : Option String := t.classes.get? c.index

def method? (t : SymbolTable) (m : MethodId) : Option MethodSignature := t.methods.get? m.index

def field? (t : SymbolTable) (f : FieldId) : Option FieldSignature := t.fields.get? f.index

/-- A name without what leads to it: the part after the last `.` or `$`. -/
def simpleName (name : String) : String :=
  String.ofList (name.toList.reverse.takeWhile fun c => c ≠ '.' && c ≠ '$').reverse

def simpleClassName? (t : SymbolTable) (c : ClassId) : Option String :=
  (t.className? c).map simpleName

/-- A method by the full name of its class and its own. -/
def methodName? (t : SymbolTable) (m : MethodId) : Option String := do
  let s ← t.method? m
  let holder ← t.className? s.holder
  return s!"{holder}.{s.name}"

/-- A method by the simple name of its class and its own. -/
def simpleMethodName? (t : SymbolTable) (m : MethodId) : Option String := do
  let s ← t.method? m
  let holder ← t.simpleClassName? s.holder
  return s!"{holder}.{s.name}"

/-- A field by the full name of its class and its own. -/
def fieldName? (t : SymbolTable) (f : FieldId) : Option String := do
  let s ← t.field? f
  let holder ← t.className? s.holder
  return s!"{holder}.{s.name}"

end SymbolTable
end IrAnalysis
