/-
# Value graphs

A graph holds the blocks, values and instructions of one method body, each
numbered by its place in a list.  What is removed stops being live and leaves
its number unused: a removed block or instruction becomes `none`, a removed
value keeps what it was and is marked.

Four things are kept in step, and `IrAnalysis.Graph.Verify` checks them: an
edge is listed by both its ends; a phi has one operand for each predecessor of
its block, in the same order; every operand has an entry among the uses of the
value; and the lists of a block name what lies in it.
-/

import IrAnalysis.Graph.Instruction

namespace IrAnalysis

/-- A basic block: phis, then instructions, and the edges in and out. -/
structure Block where
  phis : List ValueId
  instructions : List InstId
  predecessors : List BlockId
  successors : List BlockId
deriving DecidableEq

namespace Block

/-- The block with nothing in it and no edges. -/
def empty : Block := ⟨[], [], [], []⟩

/-- Nothing is in the block. -/
def isEmpty (b : Block) : Bool := b.phis.isEmpty && b.instructions.isEmpty

/-- The first place of a predecessor in the list. -/
def predecessorIndex? (b : Block) (p : BlockId) : Option Nat := b.predecessors.idxOf? p

end Block

/-- A phi: the block at whose entry it stands, and the value that flows in from
each predecessor. -/
structure Phi where
  block : BlockId
  operands : List ValueId
deriving DecidableEq

namespace Phi

/-- All operands are one value. -/
def isTrivial (p : Phi) : Bool :=
  match p.operands with
  | [] => true
  | v :: r => r.all (· = v)

instance : ToString Phi where
  toString p := "phi(" ++ ", ".intercalate (p.operands.map toString) ++ ")"

end Phi

/-- How a value comes about. -/
inductive Definition
  | instruction (i : InstId)
  | phi (p : Phi)
deriving DecidableEq

/-- A value: its type, its definition and its uses, one entry for each operand
that reads it. -/
structure Value where
  type : Ty
  definition : Definition
  users : List InstId
  phiUsers : List ValueId
  live : Bool
deriving DecidableEq

namespace Value

def phi? (v : Value) : Option Phi :=
  match v.definition with
  | .phi p => some p
  | .instruction _ => none

def instruction? (v : Value) : Option InstId :=
  match v.definition with
  | .phi _ => none
  | .instruction i => some i

def isPhi (v : Value) : Bool := v.phi?.isSome

/-- Nothing reads the value. -/
def isUnused (v : Value) : Bool := v.users.isEmpty && v.phiUsers.isEmpty

/-- Change the operands, if the value is a phi. -/
def mapOperands (f : List ValueId → List ValueId) (v : Value) : Value :=
  match v.definition with
  | .phi p => { v with definition := .phi { p with operands := f p.operands } }
  | .instruction _ => v

end Value

/-- The value graph of one method body. -/
structure Graph where
  method : Option MethodId
  blocks : List (Option Block)
  values : List Value
  instructions : List (Option Instruction)
deriving DecidableEq

namespace Graph

/-- The graph without blocks. -/
def empty (method : Option MethodId) : Graph := ⟨method, [], [], []⟩

/-! ### What is live -/

/-- A live block. -/
def block? (g : Graph) (b : BlockId) : Option Block := g.blocks[b.index]?.join

/-- A live instruction. -/
def instruction? (g : Graph) (i : InstId) : Option Instruction := g.instructions[i.index]?.join

/-- A value, live or removed. -/
def slot? (g : Graph) (v : ValueId) : Option Value := g.values[v.index]?

/-- A live value. -/
def value? (g : Graph) (v : ValueId) : Option Value := (g.slot? v).filter (·.live)

/-- The phi that defines a value, live or removed. -/
def phi? (g : Graph) (v : ValueId) : Option Phi := (g.slot? v).bind (·.phi?)

/-- The type of a value, live or removed. -/
def typeAt (g : Graph) (v : ValueId) : Ty := ((g.slot? v).map (·.type)).getD .bottom

/-- The live blocks, in the order they were made. -/
def liveBlocks (g : Graph) : List (BlockId × Block) :=
  g.blocks.zipIdx.filterMap fun (b, i) => b.map (⟨i⟩, ·)

/-- The live values, in the order they were made. -/
def liveValues (g : Graph) : List (ValueId × Value) :=
  g.values.zipIdx.filterMap fun (v, i) => if v.live then some (⟨i⟩, v) else none

/-- The live phis, in the order they were made. -/
def livePhis (g : Graph) : List (ValueId × Value) := g.liveValues.filter (·.2.isPhi)

/-- The live instructions, in the order they were made. -/
def liveInstructions (g : Graph) : List (InstId × Instruction) :=
  g.instructions.zipIdx.filterMap fun (x, i) => x.map (⟨i⟩, ·)

/-- The number of live blocks. -/
def blockCount (g : Graph) : Nat := g.liveBlocks.length

/-- The entry: the first block that was made, as long as it is live. -/
def entry? (g : Graph) : Option BlockId := (g.block? ⟨0⟩).map fun _ => ⟨0⟩

/-- A live phi. -/
def isLivePhi (g : Graph) (v : ValueId) : Bool := (g.value? v).any (·.isPhi)

/-! ### Single changes -/

def modifyBlock (g : Graph) (b : BlockId) (f : Block → Block) : Graph :=
  { g with blocks := g.blocks.modify b.index (Option.map f) }

def modifyValue (g : Graph) (v : ValueId) (f : Value → Value) : Graph :=
  { g with values := g.values.modify v.index f }

def modifyInstruction (g : Graph) (i : InstId) (f : Instruction → Instruction) : Graph :=
  { g with instructions := g.instructions.modify i.index (Option.map f) }

def setType (g : Graph) (v : ValueId) (t : Ty) : Graph :=
  g.modifyValue v fun x => { x with type := t }

/-! ### Text -/

/-- A phi as listed. -/
def phiLine (g : Graph) (v : ValueId) : Option String := do
  let x ← g.slot? v
  let p ← x.phi?
  return s!"  {v} = {p} : {x.type}\n"

/-- An instruction as listed, with the type of what it defines. -/
def instructionLine (g : Graph) (i : InstId) : Option String := do
  let x ← g.instruction? i
  return match x.output with
    | some v => s!"  {x} : {g.typeAt v}\n"
    | none => s!"  {x}\n"

/-- A block as listed. -/
def blockText (g : Graph) (id : BlockId) (b : Block) : String :=
  s!"{id}:\n" ++ String.join (b.phis.filterMap g.phiLine) ++
    String.join (b.instructions.filterMap g.instructionLine) ++
    if b.successors.isEmpty then ""
    else "  ->" ++ String.join (b.successors.map fun s => s!" {s}") ++ "\n"

instance : ToString Graph where
  toString g := String.join (g.liveBlocks.map fun (id, b) => g.blockText id b)

end Graph
end IrAnalysis
