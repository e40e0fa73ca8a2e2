/-
# Abstract values

What is known about the value of a variable or of an argument.  The single
values (`null`, a number, a string, the content of a constant field) are
unrelated; `unknown` lies above all of them and `bottom` below.

Bitwise operations know more than their operands say one by one: a zero or an
all-ones operand may decide the result by itself, or hand the other operand
through.

| operation | `0` with `x` | `-1` with `x` |
| --- | --- | --- |
| `or` | `x` | `-1` |
| `and` | `0` | `x` |
| `xor` | `x` | unknown |
-/

import IrAnalysis.Item

namespace IrAnalysis

/-- What is known about a value. -/
inductive AbsVal
  | bottom
  | unknown
  | null
  | number (n : Int64)
  | string (s : String)
  | field (f : FieldId)
deriving DecidableEq

namespace AbsVal

def isUnknown : AbsVal → Bool
  | unknown => true
  | _ => false

def isBottom : AbsVal → Bool
  | bottom => true
  | _ => false

/-- Exactly one value is meant. -/
def isSingle : AbsVal → Bool
  | bottom | unknown => false
  | _ => true

def number? : AbsVal → Option Int64
  | number n => some n
  | _ => none

def field? : AbsVal → Option FieldId
  | field f => some f
  | _ => none

def isZero : AbsVal → Bool
  | number n => n == 0
  | _ => false

/-- Every bit is set. -/
def isAllOnes : AbsVal → Bool
  | number n => n == -1
  | _ => false

/-- A truth value as a number. -/
def ofBool (b : Bool) : AbsVal := number (if b then 1 else 0)

/-- The least value that covers both. -/
def join : AbsVal → AbsVal → AbsVal
  | bottom, b => b
  | a, bottom => a
  | a, b => if a = b then a else unknown

/-- The greatest value that both cover. -/
def meet : AbsVal → AbsVal → AbsVal
  | unknown, b => b
  | a, unknown => a
  | a, b => if a = b then a else bottom

/-- `a` is covered by `b`. -/
def le (a b : AbsVal) : Bool := a.join b = b

/-- A bitwise operation: nothing comes of nothing, two numbers are combined by
`both`, and a number beside anything else gives what `one` says. -/
def bitwise (both : Int64 → Int64 → Int64) (one : Int64 → AbsVal → AbsVal) :
    AbsVal → AbsVal → AbsVal
  | bottom, _ => bottom
  | _, bottom => bottom
  | number a, number b => number (both a b)
  | number a, x => one a x
  | x, number b => one b x
  | _, _ => unknown

def or : AbsVal → AbsVal → AbsVal :=
  bitwise (· ||| ·) fun n x => if n = 0 then x else if n = -1 then number (-1) else unknown

def and : AbsVal → AbsVal → AbsVal :=
  bitwise (· &&& ·) fun n x => if n = 0 then number 0 else if n = -1 then x else unknown

def xor : AbsVal → AbsVal → AbsVal :=
  bitwise (· ^^^ ·) fun n x => if n = 0 then x else unknown

theorem bitwise_bottom_left (both : Int64 → Int64 → Int64) (one : Int64 → AbsVal → AbsVal)
    (x : AbsVal) : bitwise both one bottom x = bottom := rfl

theorem bitwise_bottom_right (both : Int64 → Int64 → Int64) (one : Int64 → AbsVal → AbsVal)
    (x : AbsVal) : bitwise both one x bottom = bottom := by
  cases x <;> rfl

theorem meet_comm (a b : AbsVal) : a.meet b = b.meet a := by
  unfold meet
  cases a <;> cases b <;> simp +contextual [eq_comm]

theorem join_comm (a b : AbsVal) : a.join b = b.join a := by
  unfold join
  cases a <;> cases b <;> simp +contextual [eq_comm]

instance : ToString AbsVal where
  toString
    | bottom => "⊥"
    | unknown => "⊤"
    | null => "null"
    | number n => toString n.toInt
    | string s => s!"\"{s}\""
    | field f => toString f

end AbsVal
end IrAnalysis
