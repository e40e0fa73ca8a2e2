/-
# Recomputing phi types

After a reset every phi is joined from its operands, and every pass-through
result computed from its operand, until nothing changes.  Everything started at
`bottom` and the operations are monotone, so types only climb, and as the
lattice has finite height this ends.

Phis wait in a queue, each once.  When the type of the first one changes, the
phis and pass-through results that read it are queued behind the others; other
results that depend on it are noted as affected.  At the end three promises are
checked: no type went down, no phi is left at `bottom` beside an operand that
is not, and every live phi whose type a renaming of classes changes was reset.

The number of steps is bounded by the height of the lattice and the number of
operands; the bound only makes the definition total.
-/

import IrAnalysis.Lens.Lookup
import IrAnalysis.PhiTypes.Reset

namespace IrAnalysis
namespace PhiTypes

/-- The values that a change of types affects, in the order they were found,
and the number of steps that it took to find them. -/
structure Affected where
  values : List ValueId
  iterations : Nat

namespace Affected

def empty : Affected := ⟨[], 0⟩

def contains (a : Affected) (v : ValueId) : Bool := v ∈ a.values

def size (a : Affected) : Nat := a.values.length

def isEmpty (a : Affected) : Bool := a.values.isEmpty

/-- Note a value, once. -/
def note (a : Affected) (v : ValueId) : Affected :=
  if v ∈ a.values then a else { a with values := a.values ++ [v] }

end Affected

/-- The type of a pass-through result, computed from its operand. -/
def passThroughType (h : Hierarchy) (g : Graph) (current : Ty) (x : Instruction) : Checked Ty :=
  if x.operation.passesThrough then
    match x.operands with
    | [] => .ok current
    | input :: _ => x.operation.tryOutputType h (g.typeAt input)
  else .ok current

/-- The type that a value should have by what it is computed from: the join of
its operands for a phi, the current type for what is no pass-through. -/
def computeType (h : Hierarchy) (g : Graph) (v : ValueId) : Checked Ty :=
  match g.slot? v with
  | none => .ok .bottom
  | some x =>
    match x.definition with
    | .phi p => Ty.tryJoinAll h (p.operands.map g.typeAt)
    | .instruction i =>
      match g.instruction? i with
      | some y => passThroughType h g x.type y
      | none => .ok x.type

/-- A recomputation under way. -/
structure Recomputation where
  graph : Graph
  /-- Values whose type is to be computed, each once. -/
  queue : List ValueId
  affected : Affected

namespace Recomputation

def enqueue (r : Recomputation) (v : ValueId) : Recomputation :=
  if v ∈ r.queue then r else { r with queue := r.queue ++ [v] }

/-- Queue or note what an instruction defines, after the type of an operand
changed. -/
def visitReader (r : Recomputation) (i : InstId) : Recomputation :=
  match r.graph.instruction? i with
  | none => r
  | some x =>
    match x.output with
    | none => r
    | some v =>
      if x.operation.passesThrough then r.enqueue v
      else { r with affected := r.affected.note v }

/-- Queue and note all that reads a value. -/
def visitReaders (r : Recomputation) (v : ValueId) : Recomputation :=
  let phis := (r.graph.readingPhis v).foldl enqueue r
  (r.graph.readingInstructions v).foldl visitReader phis

/-- Compute the type of the first value of the queue. -/
def step (h : Hierarchy) (r : Recomputation) (v : ValueId) (rest : List ValueId) :
    Checked Recomputation := do
  let affected := { r.affected with iterations := r.affected.iterations + 1 }
  let r := { r with queue := rest, affected }
  let current := r.graph.typeAt v
  let computed ← computeType h r.graph v
  if computed = current then return r
  if ← current.tryLe h computed then
    return { r with graph := r.graph.setType v computed }.visitReaders v
  throw (.descent v current computed)

/-- Compute types until the queue is empty, at most `fuel` of them. -/
def run (h : Hierarchy) : Nat → Recomputation → Checked Recomputation
  | 0, r => .ok r
  | fuel + 1, r =>
    match r.queue with
    | [] => .ok r
    | v :: rest => do (← r.step h v rest).run h fuel

end Recomputation

/-- A phi at `bottom` beside an operand that is not. -/
def isUnresolved (g : Graph) (v : ValueId) : Bool :=
  (g.typeAt v).isBottom &&
    (g.phi? v).any fun p => p.operands.any fun operand => !(g.typeAt operand).isBottom

/-- Every phi was reset, or keeps its type under the renaming. -/
def allScheduled (r : Renaming) (affected : List ValueId) :
    List (ValueId × Value) → Checked Bool
  | [] => .ok true
  | (v, x) :: rest =>
    if v ∈ affected then allScheduled r affected rest
    else do
      if (← x.type.tryRename r) = x.type then allScheduled r affected rest
      else return false

/-- More steps than a recomputation takes: each value climbs at most as often
as the lattice is high, each time queueing what reads it. -/
def stepBound (h : Hierarchy) (g : Graph) (queue : List ValueId) : Nat :=
  (queue.length + (h.height + 4) * (g.readCount + 1)) * (g.values.length + 1)

/-- Compute the types of the values that were reset, and check the outcome
against a renaming of classes. -/
def recompute (h : Hierarchy) (r : Renaming) (g : Graph) (affected : List ValueId)
    (list : ResetList) : Checked (Graph × Affected) := do
  let start : Recomputation := ⟨g, list.phis, .empty⟩
  let last ← start.run h (stepBound h g list.phis)
  let unresolved := list.phis.filter (isUnresolved last.graph)
  if !unresolved.isEmpty then throw (.leftAtBottom unresolved)
  if ← allScheduled r affected last.graph.livePhis then return (last.graph, last.affected)
  throw .unscheduled

/-- The outcome of an update: the graph, the values it affects, and every phi
that was reset. -/
structure Update where
  graph : Graph
  affected : Affected
  phis : List ValueId

/-- Reset all that hangs on the seeds and recompute it.  Without a live phi
among the seeds nothing is done and nothing checked. -/
def update (h : Hierarchy) (r : Renaming) (g : Graph) (seeds : List ValueId) : Checked Update :=
  let outcome := reset g seeds
  match outcome.list with
  | none => .ok ⟨outcome.graph, .empty, outcome.affected⟩
  | some list => do
    let (graph, affected) ← recompute h r outcome.graph outcome.affected list
    return ⟨graph, affected, outcome.affected⟩

/-- Move the types of a graph from the names of `since` to those of `lens`, and
mend the phis. -/
def rewrite (h : Hierarchy) (lens since : Lens) (g : Graph) : Checked (Graph × Affected) := do
  let (renamed, seeds) ← g.renameTypes (lens.types since)
  let outcome ← update h (lens.types since) renamed seeds
  return (outcome.graph, outcome.affected)

end PhiTypes
end IrAnalysis
