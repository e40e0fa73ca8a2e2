/-
# Changes of a graph that always go through

The building blocks of the edits in `IrAnalysis.Graph.Edit`: each does its part
and leaves whatever it does not find alone.  On a reachable graph the blocks that
an edit changes are all found (`IrAnalysis.Proofs.LateChecks`).  A use that goes
is taken out of its list by moving the last use into its place.
-/

import IrAnalysis.Graph.Basic

namespace IrAnalysis

/-- The list without the first `a`, the last member standing in its place. -/
def takeOut {α : Type} [DecidableEq α] (a : α) (l : List α) : List α :=
  match l.idxOf? a, l.getLast? with
  | some i, some z => (l.set i z).dropLast
  | _, _ => l

namespace Graph

/-! ### Uses -/

/-- The instruction reads the value once more. -/
def addUse (i : InstId) (g : Graph) (v : ValueId) : Graph :=
  g.modifyValue v fun x => { x with users := x.users ++ [i] }

/-- The instruction reads the value once less. -/
def dropUse (i : InstId) (g : Graph) (v : ValueId) : Graph :=
  g.modifyValue v fun x => { x with users := takeOut i x.users }

/-- The phi reads the value once more. -/
def addPhiUse (phi : ValueId) (g : Graph) (v : ValueId) : Graph :=
  g.modifyValue v fun x => { x with phiUsers := x.phiUsers ++ [phi] }

/-- The phi reads the value once less. -/
def dropPhiUse (phi : ValueId) (g : Graph) (v : ValueId) : Graph :=
  g.modifyValue v fun x => { x with phiUsers := takeOut phi x.phiUsers }

/-! ### Growing -/

/-- The number of the next block. -/
def nextBlock (g : Graph) : BlockId := ⟨g.blocks.length⟩

/-- The number of the next value. -/
def nextValue (g : Graph) : ValueId := ⟨g.values.length⟩

/-- The number of the next instruction. -/
def nextInstruction (g : Graph) : InstId := ⟨g.instructions.length⟩

def pushBlock (g : Graph) (b : Block) : Graph := { g with blocks := g.blocks ++ [some b] }

/-- Draw an edge. -/
def link (g : Graph) (source target : BlockId) : Graph :=
  (g.modifyBlock source fun b => { b with successors := b.successors ++ [target] }).modifyBlock
    target fun b => { b with predecessors := b.predecessors ++ [source] }

/-- Put a phi without operands last among the phis of a block. -/
def pushPhi (g : Graph) (b : BlockId) (t : Ty) : Graph :=
  let defined : Value := ⟨t, .phi ⟨b, []⟩, [], [], true⟩
  let grown : Graph := { g with values := g.values ++ [defined] }
  grown.modifyBlock b fun x => { x with phis := x.phis ++ [g.nextValue] }

/-- Give a phi one more operand. -/
def pushOperand (g : Graph) (phi v : ValueId) : Graph :=
  addPhiUse phi (g.modifyValue phi (·.mapOperands (· ++ [v]))) v

/-- Put an instruction last in a block.  It defines the next value if it is
given a type for it. -/
def pushInstruction (g : Graph) (b : BlockId) (operation : Operation) (operands : List ValueId)
    (type : Option Ty) : Graph :=
  let i := g.nextInstruction
  let defined := type.toList.map fun t => (⟨t, .instruction i, [], [], true⟩ : Value)
  let reading := operands.foldl (addUse i) { g with values := g.values ++ defined }
  let x : Instruction := ⟨b, operation, operands, type.map fun _ => g.nextValue⟩
  let grown : Graph := { reading with instructions := reading.instructions ++ [some x] }
  grown.modifyBlock b fun x => { x with instructions := x.instructions ++ [i] }

/-! ### Rewriting -/

/-- Let every reader of `old` read `new`. -/
def substitute (g : Graph) (old new : ValueId) : Graph :=
  let users := ((g.slot? old).map (·.users)).getD []
  let phiUsers := ((g.slot? old).map (·.phiUsers)).getD []
  let swap : List ValueId → List ValueId := List.map fun v => if v = old then new else v
  let unread := g.modifyValue old fun x => { x with users := [], phiUsers := [] }
  let rewired := users.foldl
    (fun g i => g.modifyInstruction i fun x => { x with operands := swap x.operands }) unread
  let rephied := phiUsers.foldl (fun g p => g.modifyValue p (·.mapOperands swap)) rewired
  rephied.modifyValue new fun x =>
    { x with users := x.users ++ users, phiUsers := x.phiUsers ++ phiUsers }

/-- Let an instruction do something else to other operands. -/
def rewriteInstruction (g : Graph) (i : InstId) (operation : Operation)
    (operands : List ValueId) : Graph :=
  let before := ((g.instruction? i).map (·.operands)).getD []
  let rewritten := g.modifyInstruction i fun x => { x with operation, operands }
  operands.foldl (addUse i) (before.foldl (dropUse i) rewritten)

/-- Tell the successors of a block that was `old` that it is `new`. -/
def renamePredecessor (old new : BlockId) (g : Graph) (successors : List BlockId) : Graph :=
  successors.foldl (fun g s => g.modifyBlock s fun b =>
    { b with predecessors := b.predecessors.map fun p => if p = old then new else p }) g

/-- Say of instructions that they lie in a block. -/
def assignBlock (b : BlockId) (g : Graph) (instructions : List InstId) : Graph :=
  instructions.foldl (fun g i => g.modifyInstruction i fun x => { x with block := b }) g

/-- Move what follows the first `index` instructions of a block, and its
successors, to a new block, and jump there. -/
def splitAt (g : Graph) (id : BlockId) (b : Block) (index : Nat) : Graph :=
  let tail := b.instructions.drop index
  let fresh := g.nextBlock
  let shortened := (g.pushBlock .empty).modifyBlock id fun b =>
    { b with instructions := b.instructions.take index, successors := [fresh] }
  let renamed := renamePredecessor id fresh (assignBlock fresh shortened tail) b.successors
  let filled := renamed.modifyBlock fresh fun _ => ⟨[], tail, [id], b.successors⟩
  filled.pushInstruction id .goto [] none

/-! ### Shrinking -/

/-- Remove an instruction and what it defines; the list of its block is left
alone. -/
def discardInstruction (g : Graph) (i : InstId) : Graph :=
  match g.instruction? i with
  | none => g
  | some x =>
    let removed : Graph := { g with instructions := g.instructions.set i.index none }
    let unread := x.operands.foldl (dropUse i) removed
    x.output.toList.foldl (fun g v => g.modifyValue v fun y => { y with live := false }) unread

/-- Take an instruction out of its block and remove it. -/
def eraseInstruction (g : Graph) (i : InstId) : Graph :=
  match g.instruction? i with
  | none => g
  | some x =>
    (g.modifyBlock x.block fun b =>
      { b with instructions := b.instructions.filter (· ≠ i) }).discardInstruction i

/-- Remove a phi, also from the list of its block. -/
def discardPhi (g : Graph) (v : ValueId) : Graph :=
  match g.phi? v with
  | none => g.modifyValue v fun x => { x with live := false }
  | some p =>
    let emptied := g.modifyValue v (·.mapOperands fun _ => [])
    let unread := p.operands.foldl (dropPhiUse v) emptied
    let unlisted := unread.modifyBlock p.block fun b => { b with phis := b.phis.filter (· ≠ v) }
    unlisted.modifyValue v fun x => { x with live := false }

/-- Take the operand at a place from a phi that has one there. -/
def dropOperand (index : Nat) (g : Graph) (phi : ValueId) : Graph :=
  match (g.phi? phi).bind (·.operands[index]?) with
  | none => g
  | some v => dropPhiUse phi (g.modifyValue phi (·.mapOperands (·.eraseIdx index))) v

/-- Remove an edge, with the operands that flow in along it.  There is no result
if there is no edge. -/
def unlink? (g : Graph) (source target : BlockId) : Option Graph := do
  let t ← g.block? target
  let index ← t.predecessorIndex? source
  let s ← g.block? source
  let place ← s.successors.idxOf? target
  let cut := (g.modifyBlock source fun b =>
    { b with successors := b.successors.eraseIdx place }).modifyBlock target fun b =>
      { b with predecessors := b.predecessors.eraseIdx index }
  return t.phis.foldl (dropOperand index) cut

/-- Remove an edge if it is there. -/
def unlink (g : Graph) (source target : BlockId) : Graph := (g.unlink? source target).getD g

/-- Remove a block; what it listed is left alone. -/
def dropBlock (g : Graph) (b : BlockId) : Graph := { g with blocks := g.blocks.set b.index none }

/-- Remove a block with all that lies in it. -/
def discardBlock (g : Graph) (id : BlockId) : Graph :=
  match g.block? id with
  | none => g
  | some b => b.phis.foldl discardPhi (b.instructions.foldl discardInstruction (g.dropBlock id))

/-- Append a block to the one before it and remove it. -/
def absorb (g : Graph) (id next : BlockId) : Graph :=
  match g.block? next with
  | none => g
  | some n =>
    let moved := assignBlock id (g.dropBlock next) n.instructions
    (renamePredecessor next id moved n.successors).modifyBlock id fun b =>
      { b with instructions := b.instructions ++ n.instructions, successors := n.successors }

/-! ### Reachability -/

/-- Mark the blocks of a list that are not marked yet, and go on from them. -/
def mark (seen work : List BlockId) : List BlockId → List BlockId × List BlockId
  | [] => (seen, work)
  | b :: r => if b ∈ seen then mark seen work r else mark (seen ++ [b]) (work ++ [b]) r

/-- Follow the edges out of the blocks in `work`, at most `fuel` blocks. -/
def explore (g : Graph) : Nat → List BlockId → List BlockId → List BlockId
  | 0, seen, _ => seen
  | _, seen, [] => seen
  | fuel + 1, seen, b :: work =>
    let (seen, work) := mark seen work (((g.block? b).map (·.successors)).getD [])
    g.explore fuel seen work

/-- The blocks reachable from `b`, each once.  Every block is gone through once
at most, so as many steps as there are blocks are enough. -/
def reachableFrom (g : Graph) (b : BlockId) : List BlockId := g.explore g.blocks.length [b] [b]

/-- The live blocks that are not among `reached`, in the order they were made. -/
def liveOutside (g : Graph) (reached : List BlockId) : List BlockId :=
  (g.liveBlocks.map (·.1)).filter (· ∉ reached)

/-- Cut the edges that lead from a block to one of `reached`. -/
def unlinkInto (reached : List BlockId) (g : Graph) (id : BlockId) : Graph :=
  (((g.block? id).map (·.successors)).getD []).foldl
    (fun g s => if s ∈ reached then g.unlink id s else g) g

end Graph
end IrAnalysis
