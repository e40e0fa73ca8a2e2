/-
# Checking a graph

`Graph.verify` goes through the live blocks and then through the live
instructions in the order they were made, and reports the first fault: an edge
that its two ends do not list equally often, a phi without one operand for each
predecessor, an operand that is not live or does not list its reader.
-/

import IrAnalysis.Graph.Basic
import IrAnalysis.Graph.Error

namespace IrAnalysis
namespace Graph

def checkBlock (g : Graph) (b : BlockId) : Except GraphError Block :=
  match g.block? b with
  | some x => .ok x
  | none => .error (.missingBlock b)

def checkValue (g : Graph) (v : ValueId) : Except GraphError Value :=
  match g.value? v with
  | some x => .ok x
  | none => .error (.missingValue v)

/-- Both ends list the edge equally often. -/
def verifySuccessor (g : Graph) (id : BlockId) (b : Block) (s : BlockId) :
    Except GraphError Unit := do
  let target ← g.checkBlock s
  let forward := b.successors.count s
  let backward := target.predecessors.count id
  if forward ≠ backward then throw (.edgeCounts id s forward backward)

/-- The predecessor lists the block as successor. -/
def verifyPredecessor (g : Graph) (id p : BlockId) : Except GraphError Unit := do
  let source ← g.checkBlock p
  if id ∉ source.successors then throw (.strayPredecessor id p)

/-- The phi has an operand for each predecessor, and each lists it. -/
def verifyPhi (g : Graph) (id : BlockId) (b : Block) (v : ValueId) : Except GraphError Unit := do
  match (← g.checkValue v).phi? with
  | none => throw (.listedNotPhi v id)
  | some p =>
    if p.operands.length ≠ b.predecessors.length then
      throw (.phiOperands v p.operands.length id b.predecessors.length)
    p.operands.forM fun operand => do
      if v ∉ (← g.checkValue operand).phiUsers then throw (.missingPhiUse operand v)

def verifyBlock (g : Graph) (id : BlockId) (b : Block) : Except GraphError Unit := do
  b.successors.forM (g.verifySuccessor id b)
  b.predecessors.forM (g.verifyPredecessor id)
  b.phis.forM (g.verifyPhi id b)

/-- Each operand lists the instruction. -/
def verifyInstruction (g : Graph) (i : InstId) (x : Instruction) : Except GraphError Unit :=
  x.operands.forM fun operand => do
    if i ∉ (← g.checkValue operand).users then throw (.missingUse operand i)

/-- Everything is in step, or the first fault. -/
def verify (g : Graph) : Except GraphError Unit := do
  g.liveBlocks.forM fun (id, b) => g.verifyBlock id b
  g.liveInstructions.forM fun (i, x) => g.verifyInstruction i x

end Graph
end IrAnalysis
