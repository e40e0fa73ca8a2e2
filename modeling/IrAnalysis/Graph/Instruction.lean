/-
# Instructions of a value graph

Blocks, values and instructions are numbered apart and written `B0`, `v0` and
`i0`.  An instruction performs an operation on operands and may define a value.

Two operations pass their single operand through: a `move` copies it and an
`assume` refines what is known of its type.  The type of what they define is a
function of the type of the operand, which is why the type fixpoint of
`IrAnalysis.PhiTypes` treats them together with the phis.
-/

import IrAnalysis.TypeFact

namespace IrAnalysis

/-- A basic block of one graph. -/
structure BlockId where
  index : Nat
deriving DecidableEq

/-- A value of one graph. -/
structure ValueId where
  index : Nat
deriving DecidableEq

/-- An instruction of one graph. -/
structure InstId where
  index : Nat
deriving DecidableEq

instance : ToString BlockId := ⟨fun b => s!"B{b.index}"⟩

instance : ToString ValueId := ⟨fun v => s!"v{v.index}"⟩

instance : ToString InstId := ⟨fun i => s!"i{i.index}"⟩

/-- What an instruction does. -/
inductive Operation
  | argument (position : Nat)
  | number (n : Int64)
  | null
  | string (s : String)
  | allocate (c : ClassId)
  | cast (c : ClassId)
  | fieldGet (f : FieldId)
  | fieldPut (f : FieldId)
  | invoke (call : Call)
  | move
  | assume (fact : TypeFact)
  | goto
  | branch
  | ret
  | raise
deriving DecidableEq

namespace Operation

/-- The type of the result is a function of the type of the one operand. -/
def passesThrough : Operation → Bool
  | move | assume _ => true
  | _ => false

def isInvoke : Operation → Bool
  | invoke _ => true
  | _ => false

/-- Control leaves the block here. -/
def isTerminator : Operation → Bool
  | goto | branch | ret | raise => true
  | _ => false

def mnemonic : Operation → String
  | argument _ => "argument"
  | number _ => "const-number"
  | null => "const-null"
  | string _ => "const-string"
  | allocate _ => "new-instance"
  | cast _ => "check-cast"
  | fieldGet _ => "field-get"
  | fieldPut _ => "field-put"
  | invoke _ => "invoke"
  | move => "move"
  | assume _ => "assume"
  | goto => "goto"
  | branch => "if"
  | ret => "return"
  | raise => "throw"

/-- The mnemonic and what belongs to it, without operands. -/
def text : Operation → String
  | argument position => s!"argument {position}"
  | number n => s!"const-number {n.toInt}"
  | string s => s!"const-string \"{s}\""
  | allocate c => s!"new-instance {c}"
  | cast c => s!"check-cast {c}"
  | fieldGet f => s!"field-get {f}"
  | fieldPut f => s!"field-put {f}"
  | invoke call => toString call
  | assume fact => s!"assume {fact}"
  | op => op.mnemonic

end Operation

/-- An instruction: the block it is in, what it does to which values, and the
value that it defines. -/
structure Instruction where
  block : BlockId
  operation : Operation
  operands : List ValueId
  output : Option ValueId
deriving DecidableEq

instance : ToString Instruction where
  toString i :=
    let target := match i.output with
      | some v => s!"{v} = "
      | none => ""
    target ++ i.operation.text ++ String.join (i.operands.map fun v => s!" {v}")

end IrAnalysis
