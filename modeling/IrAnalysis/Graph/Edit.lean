/-
# Edits of a graph

The public ways to build and to change a graph.  An edit looks at what it is
given first and refuses with a `GraphError`; what it has changed by then stays
changed, so the graph is part of the outcome of a refusal too.

| edit | what it keeps |
| --- | --- |
| `replaceValue` | every reader of one value reads the other instead |
| `split` | the new block takes the place of the old one before its successors |
| `merge` | the phis of the second block give way to their operands |
| `removeEdge` | each phi loses the operand that flowed in along the edge |
| `removeUnreachable` | phis lose the operands that flowed in from dead blocks |
-/

import IrAnalysis.Graph.Change
import IrAnalysis.Graph.Verify
import IrAnalysis.Ty.Lattice

namespace IrAnalysis

/-- A step that may change a graph and may refuse. -/
abbrev Edit (α : Type) := ExceptT GraphError (StateM Graph) α

namespace Edit

/-- Look at the graph, or refuse. -/
def check {α : Type} (f : Graph → Except GraphError α) : Edit α := fun g => (f g, g)

/-- Change the graph. -/
def change (f : Graph → Graph) : Edit Unit := fun g => (.ok (), f g)

/-- The outcome on a graph. -/
def on {α : Type} (e : Edit α) (g : Graph) : Except GraphError α × Graph := e g

end Edit

namespace Graph

open Edit

/-- All are live values. -/
def checkValues (g : Graph) (vs : List ValueId) : Except GraphError Unit :=
  vs.forM fun v => do discard (g.checkValue v)

def checkInstruction (g : Graph) (i : InstId) : Except GraphError Instruction :=
  match g.instruction? i with
  | some x => .ok x
  | none => .error (.missingInstruction i)

/-! ### Building -/

/-- Add a block.  The first one is the entry. -/
def addBlock (g : Graph) : Graph × BlockId := (g.pushBlock .empty, g.nextBlock)

/-- Add an edge.  The phis of its target then lack an operand. -/
def addEdge (source target : BlockId) : Edit Unit := do
  discard <| check (·.checkBlock target)
  discard <| check (·.checkBlock source)
  change (·.link source target)

/-- Add a phi without operands. -/
def addPhi (b : BlockId) (t : Ty) : Edit ValueId := do
  discard <| check (·.checkBlock b)
  let g ← get
  change (·.pushPhi b t)
  return g.nextValue

/-- Give a phi the operand that flows in from the next predecessor. -/
def appendOperand (phi v : ValueId) : Edit Unit := do
  discard <| check (·.checkValue v)
  match (← check (·.checkValue phi)).phi? with
  | none => throw (.notAPhi phi)
  | some p =>
    let b ← check (·.checkBlock p.block)
    if b.predecessors.length ≤ p.operands.length then
      throw (.phiComplete phi b.predecessors.length p.block)
    change (·.pushOperand phi v)

/-- Add an instruction at the end of a block.  It defines a value if it is given
a type for it. -/
def addInstruction (b : BlockId) (operation : Operation) (operands : List ValueId)
    (type : Option Ty) : Edit InstId := do
  discard <| check (·.checkBlock b)
  check (·.checkValues operands)
  if operation.passesThrough && operands.length ≠ 1 then
    throw (.operandCount operation operands.length)
  let g ← get
  change (·.pushInstruction b operation operands type)
  return g.nextInstruction

/-- Add an instruction that defines a value. -/
def addValue (b : BlockId) (operation : Operation) (operands : List ValueId) (type : Ty) :
    Edit ValueId := do
  let i ← addInstruction b operation operands (some type)
  match (← get).instruction? i |>.bind (·.output) with
  | some v => return v
  | none => throw (.missingInstruction i)

/-! ### Looking -/

def typeOf (g : Graph) (v : ValueId) : Except GraphError Ty := do
  return (← g.checkValue v).type

/-- The instructions that read a value, each once. -/
def usersOf (g : Graph) (v : ValueId) : Except GraphError (List InstId) := do
  return (← g.checkValue v).users.eraseDups

/-- The phis that read a value, each once. -/
def phiUsersOf (g : Graph) (v : ValueId) : Except GraphError (List ValueId) := do
  return (← g.checkValue v).phiUsers.eraseDups

/-! ### Types -/

/-- Why a type was not narrowed. -/
inductive NarrowError
  | refused (e : GraphError)
  | violated (v : Violation)

/-- Give a value a type below the one it has. -/
def narrow (g : Graph) (h : Hierarchy) (v : ValueId) (t : Ty) : Except NarrowError Graph :=
  match g.typeOf v with
  | .error e => .error (.refused e)
  | .ok before =>
    match t.tryLe h before with
    | .error w => .error (.violated w)
    | .ok true => .ok (g.setType v t)
    | .ok false => .error (.violated (.widening v before t))

/-- A value with its type in new names, and the phis that this may change.  The
type of a phi is left for the type fixpoint. -/
def renameValue (r : Renaming) (v : ValueId) (x : Value) : Checked (Value × List ValueId) := do
  if !x.live then return (x, [])
  let t ← x.type.tryRename r
  if t = x.type then return (x, [])
  if x.isPhi then return (x, [v])
  return ({ x with type := t }, x.phiUsers)

/-- The types of all values in new names, and the phis whose types may change. -/
def renameTypes (g : Graph) (r : Renaming) : Checked (Graph × List ValueId) := do
  let renamed ← g.values.zipIdx.mapM fun (x, i) => renameValue r ⟨i⟩ x
  return ({ g with values := renamed.map (·.1) }, (renamed.map (·.2)).flatten)

/-! ### Structure -/

/-- Let every reader of `old` read `new`. -/
def replaceValue (old new : ValueId) : Edit Unit := do
  discard <| check (·.checkValue old)
  discard <| check (·.checkValue new)
  if old ≠ new then change (·.substitute old new)

/-- Let an instruction do something else, to other operands.  What it defines
stays. -/
def replaceInstruction (i : InstId) (operation : Operation) (operands : List ValueId) :
    Edit Unit := do
  discard <| check (·.checkInstruction i)
  check (·.checkValues operands)
  change (·.rewriteInstruction i operation operands)

/-- Remove an instruction that defines nothing that is read. -/
def removeInstruction (i : InstId) : Edit Unit := do
  let x ← check (·.checkInstruction i)
  match x.output with
  | some v =>
    if ((← get).slot? v).any (!·.isUnused) then throw (.stillUsed i v)
  | none => pure ()
  change (·.eraseInstruction i)

/-- Split a block before an instruction.  What follows moves to a new block,
with the successors. -/
def split (id : BlockId) (index : Nat) : Edit BlockId := do
  let b ← check (·.checkBlock id)
  if b.instructions.length < index then
    throw (.splitBeyond id index b.instructions.length)
  let g ← get
  change (·.splitAt id b index)
  return g.nextBlock

/-- Put the first operand of a phi in its place. -/
def inlinePhi (v : ValueId) : Edit Unit := do
  match ((← get).phi? v).bind (·.operands.head?) with
  | none => throw (.noOperand v)
  | some operand =>
    replaceValue v operand
    change (·.discardPhi v)

/-- Remove a jump at the end of a block. -/
def dropGoto (id : BlockId) : Edit Unit := do
  match (← check (·.checkBlock id)).instructions.getLast? with
  | none => pure ()
  | some i =>
    if ((← get).instruction? i).any (·.operation = .goto) then removeInstruction i

/-- Append the one successor of a block, which must have no other predecessor,
and return the number that it had. -/
def merge (id : BlockId) : Edit BlockId := do
  match (← check (·.checkBlock id)).successors with
  | [next] =>
    if next = id then throw (.noSingleSuccessor id)
    let n ← check (·.checkBlock next)
    if n.predecessors ≠ [id] then throw (.otherPredecessors next id)
    n.phis.forM inlinePhi
    dropGoto id
    change (·.absorb id next)
    return next
  | _ => throw (.noSingleSuccessor id)

/-- Remove an edge, with the operands that flow in along it. -/
def removeEdge (source target : BlockId) : Edit Unit := do
  discard <| check (·.checkBlock source)
  discard <| check (·.checkBlock target)
  match (← get).unlink? source target with
  | some g => set g
  | none => throw (.missingEdge source target)

/-- Remove the blocks that the entry does not lead to, and return their
numbers.  Without an entry nothing is removed. -/
def removeUnreachable (g : Graph) : Graph × List BlockId :=
  match entry? g with
  | none => (g, [])
  | some entry =>
    let reached := g.reachableFrom entry
    let dead := g.liveOutside reached
    (dead.foldl discardBlock (dead.foldl (unlinkInto reached) g), dead)

end Graph
end IrAnalysis
