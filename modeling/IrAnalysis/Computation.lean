/-
# Computations: values that wait for the arguments of a method

A `Computation` is a tree of bitwise operations over known values and over
parameters whose values are not known yet.  `combine` builds one and folds at
once whatever reads no parameter, so an operation in a tree always reads one.

`evalM` runs a tree in any monad that can be asked for a parameter.  It asks
from left to right and stops at the first operand that is `bottom`, since
nothing can come of it: `eval` is the run that asks a table of values, `trace`
the run that also notes what it asked.
-/

import IrAnalysis.AbsVal

namespace IrAnalysis

/-- A bitwise operation. -/
inductive BitOp
  | or
  | and
  | xor
deriving DecidableEq

namespace BitOp

def symbol : BitOp → String
  | or => "|"
  | and => "&"
  | xor => "^"

instance : ToString BitOp := ⟨symbol⟩

/-- The operation on abstract values. -/
def apply : BitOp → AbsVal → AbsVal → AbsVal
  | or => AbsVal.or
  | and => AbsVal.and
  | xor => AbsVal.xor

theorem apply_bottom_left (op : BitOp) (v : AbsVal) : op.apply .bottom v = .bottom := by
  cases op <;> rfl

theorem apply_bottom_right (op : BitOp) (v : AbsVal) : op.apply v .bottom = .bottom := by
  cases op <;> exact AbsVal.bitwise_bottom_right _ _ v

end BitOp

/-- A value computed from the arguments of a method. -/
inductive Computation
  | unknown
  | value (v : AbsVal)
  | argument (p : Parameter)
  | binop (op : BitOp) (left right : Computation)

namespace Computation

/-- Whether two trees are equal.  Trees share subtrees, and operands that are
one object are not looked into. -/
def decEq : (s t : Computation) → Decidable (s = t)
  | unknown, unknown => isTrue rfl
  | value v, value w =>
    if h : v = w then isTrue (congrArg value h) else isFalse fun e => h (value.inj e)
  | argument p, argument q =>
    if h : p = q then isTrue (congrArg argument h) else isFalse fun e => h (argument.inj e)
  | binop o l r, binop o' l' r' =>
    if ho : o = o' then
      match withPtrEqDecEq l l' fun _ => decEq l l' with
      | isFalse hl => isFalse fun e => hl (binop.inj e).2.1
      | isTrue hl =>
        match withPtrEqDecEq r r' fun _ => decEq r r' with
        | isFalse hr => isFalse fun e => hr (binop.inj e).2.2
        | isTrue hr => isTrue (by rw [ho, hl, hr])
    else isFalse fun e => ho (binop.inj e).1
  | unknown, value _ | unknown, argument _ | unknown, binop .. => isFalse nofun
  | value _, unknown | value _, argument _ | value _, binop .. => isFalse nofun
  | argument _, unknown | argument _, value _ | argument _, binop .. => isFalse nofun
  | binop .., unknown | binop .., value _ | binop .., argument _ => isFalse nofun

instance : DecidableEq Computation := decEq

/-- The known value as a tree; there is one tree for knowing nothing. -/
def ofValue (v : AbsVal) : Computation := if v.isUnknown then unknown else value v

/-- The tree with a value written as `ofValue` writes it. -/
def normalize : Computation → Computation
  | value v => ofValue v
  | t => t

/-- The tree says nothing. -/
def isUnknown : Computation → Bool
  | unknown => true
  | value v => v.isUnknown
  | _ => false

/-- The tree reads a parameter. -/
def isOpen : Computation → Bool
  | unknown | value _ => false
  | argument _ => true
  | binop _ l r => l.isOpen || r.isOpen

/-- Run a tree, asking for parameters from left to right, up to the first
operand that is `bottom`. -/
def evalM {m : Type → Type} [Monad m] (ask : Parameter → m AbsVal) : Computation → m AbsVal
  | unknown => pure .unknown
  | value v => pure v
  | argument p => ask p
  | binop op l r => do
    let a ← l.evalM ask
    if a.isBottom then return a
    let b ← r.evalM ask
    if b.isBottom then return b
    return op.apply a b

/-- The value of a tree under the given values of the parameters. -/
def eval (state : Parameter → AbsVal) (t : Computation) : AbsVal :=
  Id.run (t.evalM fun p => pure (state p))

/-- Note that a parameter is asked for, and answer from `state`. -/
def note (state : Parameter → AbsVal) (p : Parameter) : StateM (List Parameter) AbsVal := do
  modify (· ++ [p])
  return state p

/-- The value of a tree together with the parameters asked for, in order. -/
def trace (state : Parameter → AbsVal) (t : Computation) : AbsVal × List Parameter :=
  (t.evalM (note state)).run []

/-- The value of a tree in code that never runs: no argument ever has a value. -/
def evalUnreachable (t : Computation) : AbsVal := t.eval fun _ => .bottom

/-- The operation on two trees, folded when neither says anything or neither
reads a parameter. -/
def combine (op : BitOp) (left right : Computation) : Computation :=
  let l := left.normalize
  let r := right.normalize
  if l.isUnknown && r.isUnknown then unknown
  else if l.isOpen || r.isOpen then binop op l r
  else ofValue (evalUnreachable (binop op l r))

/-- **Stopping early changes no value:** the value of an operation is the
operation on the values. -/
theorem eval_binop (state : Parameter → AbsVal) (op : BitOp) (l r : Computation) :
    (binop op l r).eval state = op.apply (l.eval state) (r.eval state) := by
  have h : (binop op l r).eval state =
      if (l.eval state).isBottom then l.eval state
      else if (r.eval state).isBottom then r.eval state
      else op.apply (l.eval state) (r.eval state) := by
    simp only [eval, evalM, Id.run, bind, pure]
    split
    · simp [*]
    · split <;> simp [*]
  rw [h]
  cases hl : l.eval state <;> cases hr : r.eval state <;>
    simp [AbsVal.isBottom, BitOp.apply_bottom_left, BitOp.apply_bottom_right]

/-- The tree as an operand: an operation stands in parentheses. -/
def operandText : Computation → String
  | unknown => "⊤"
  | value v => toString v
  | argument p => toString p
  | binop op l r => "(" ++ l.operandText ++ s!" {op} " ++ r.operandText ++ ")"

/-- The tree as written. -/
def text : Computation → String
  | binop op l r => l.operandText ++ s!" {op} " ++ r.operandText
  | t => t.operandText

instance : ToString Computation := ⟨text⟩

end Computation
end IrAnalysis
