/-
# Why a graph refuses

A refused edit names something that is not live, or arguments that do not fit
together.  A graph that fails its check names the first fault found.
-/

import IrAnalysis.Graph.Instruction

namespace IrAnalysis

/-- Why an edit or a check of a graph failed. -/
inductive GraphError
  | missingBlock (b : BlockId)
  | missingValue (v : ValueId)
  | missingInstruction (i : InstId)
  | missingEdge (source target : BlockId)
  /-- The value is defined by an instruction. -/
  | notAPhi (v : ValueId)
  /-- The phi has an operand for each predecessor already. -/
  | phiComplete (v : ValueId) (predecessors : Nat) (block : BlockId)
  /-- A pass-through operation was given more or fewer operands than one. -/
  | operandCount (operation : Operation) (given : Nat)
  /-- The value that the instruction defines is still read. -/
  | stillUsed (i : InstId) (output : ValueId)
  /-- The block has fewer instructions. -/
  | splitBeyond (b : BlockId) (index length : Nat)
  /-- The block does not go on to one other block alone. -/
  | noSingleSuccessor (b : BlockId)
  /-- The successor can be reached from elsewhere. -/
  | otherPredecessors (successor block : BlockId)
  /-- The phi has no operand to take its place. -/
  | noOperand (v : ValueId)
  /-- The two ends of an edge list it different numbers of times. -/
  | edgeCounts (source target : BlockId) (forward backward : Nat)
  /-- The predecessor does not list the block as successor. -/
  | strayPredecessor (b predecessor : BlockId)
  /-- A block lists among its phis what is none. -/
  | listedNotPhi (v : ValueId) (b : BlockId)
  /-- The phi has not one operand for each predecessor. -/
  | phiOperands (v : ValueId) (operands : Nat) (b : BlockId) (predecessors : Nat)
  /-- The value does not list the phi that reads it. -/
  | missingPhiUse (v phi : ValueId)
  /-- The value does not list the instruction that reads it. -/
  | missingUse (v : ValueId) (i : InstId)
deriving DecidableEq

namespace GraphError

def message : GraphError → String
  | missingBlock b => s!"Block {b} does not exist"
  | missingValue v => s!"Value {v} does not exist"
  | missingInstruction i => s!"Instruction {i} does not exist"
  | missingEdge source target => s!"Edge {source} -> {target} does not exist"
  | notAPhi v => s!"{v} is not a phi"
  | phiComplete v predecessors block =>
    s!"{v} already has an operand for each of the {predecessors} predecessors of {block}"
  | operandCount operation given =>
    s!"{operation.mnemonic} takes exactly one operand, got {given}"
  | stillUsed i output => s!"cannot remove {i}: its value {output} is still used"
  | splitBeyond b index length =>
    s!"cannot split {b} at {index}, it has {length} instructions"
  | noSingleSuccessor b => s!"{b} does not have a single successor other than itself"
  | otherPredecessors successor block => s!"{successor} has predecessors other than {block}"
  | noOperand v => s!"{v} has no operand"
  | edgeCounts source target forward backward =>
    s!"edge {source} -> {target} recorded {forward} times forward, {backward} times backward"
  | strayPredecessor b predecessor =>
    s!"{b} lists {predecessor} as predecessor without a matching edge"
  | listedNotPhi v b => s!"{v} in phi list of {b} is not a phi"
  | phiOperands v operands b predecessors =>
    s!"{v} has {operands} operands but {b} has {predecessors} predecessors"
  | missingPhiUse v phi => s!"{v} missing phi use by {phi}"
  | missingUse v i => s!"{v} missing use by {i}"

end GraphError
end IrAnalysis
