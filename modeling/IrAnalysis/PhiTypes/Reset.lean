/-
# Resetting phi types

When the type of a value changes, the phis that it flows into may carry stale
types.  Joining each phi anew is not enough: phis form cycles, and a phi joined
while its partner still holds the old type keeps the old type.  So everything
that hangs on the seed phis is first set to `bottom`: the phis that read a value
set to `bottom`, and the results of pass-through instructions that do.

The values are gone through from two queues, one of phis and one of
pass-through results.  Each queue is drained before the other is looked at
again, pass-through results first, and each value is entered once.
-/

import IrAnalysis.Graph.Edit
import IrAnalysis.NatSet

namespace IrAnalysis

namespace ValueId

/-- The values of a list in ascending order, each once. -/
def ascending (vs : List ValueId) : List ValueId :=
  (NatSet.ofList (vs.map (·.index))).toList.map (⟨·⟩)

theorem mem_ascending {vs : List ValueId} {v : ValueId} : v ∈ ascending vs ↔ v ∈ vs := by
  have h : ∀ k, k ∈ (NatSet.ofList (vs.map (·.index))).toList ↔ k ∈ vs.map (·.index) :=
    fun k => NatSet.mem_ofList
  simp only [ascending, List.mem_map, h]
  constructor
  · rintro ⟨_, ⟨w, hw, rfl⟩, rfl⟩
    exact hw
  · exact fun hv => ⟨v.index, ⟨v, hv, rfl⟩, rfl⟩

end ValueId

namespace Graph

/-- What a pass-through instruction defines. -/
def passThroughOutput? (g : Graph) (i : InstId) : Option ValueId := do
  let x ← g.instruction? i
  if x.operation.passesThrough then x.output else none

/-- The phis that read a value. -/
def readingPhis (g : Graph) (v : ValueId) : List ValueId :=
  ((g.slot? v).map (·.phiUsers)).getD []

/-- The instructions that read a value. -/
def readingInstructions (g : Graph) (v : ValueId) : List InstId :=
  ((g.slot? v).map (·.users)).getD []

/-- What the pass-through instructions that read a value define. -/
def readingPassThroughs (g : Graph) (v : ValueId) : List ValueId :=
  (g.readingInstructions v).filterMap g.passThroughOutput?

/-- The number of operands, counted over all values and instructions. -/
def readCount (g : Graph) : Nat :=
  g.values.foldr (fun x n => x.users.length + x.phiUsers.length + n) 0

end Graph

namespace PhiTypes

/-- The values that were set to `bottom`, in order. -/
structure ResetList where
  phis : List ValueId
  passThroughs : List ValueId

namespace ResetList

/-- Nothing was set. -/
def empty : ResetList := ⟨[], []⟩

def size (r : ResetList) : Nat := r.phis.length + r.passThroughs.length

def isEmpty (r : ResetList) : Bool := r.phis.isEmpty && r.passThroughs.isEmpty

end ResetList

/-- Which queue is being drained. -/
inductive Draining
  | passThroughs
  | phis
deriving DecidableEq

/-- A reset under way. -/
structure ResetState where
  graph : Graph
  /-- Values still to be set, phis and pass-through results apart. -/
  phiQueue : List ValueId
  passQueue : List ValueId
  /-- All values ever entered into the queues. -/
  phisSeen : List ValueId
  passSeen : List ValueId
  done : ResetList
  draining : Draining

namespace ResetState

/-- Put the values that were not seen yet at the end of the queue. -/
def enqueue (seen queue : List ValueId) : List ValueId → List ValueId × List ValueId
  | [] => (seen, queue)
  | v :: r => if v ∈ seen then enqueue seen queue r else enqueue (seen ++ [v]) (queue ++ [v]) r

/-- Set a value to `bottom` and enter what hangs on it. -/
def visit (s : ResetState) (v : ValueId) : ResetState :=
  let (phisSeen, phiQueue) := enqueue s.phisSeen s.phiQueue (s.graph.readingPhis v)
  let (passSeen, passQueue) := enqueue s.passSeen s.passQueue (s.graph.readingPassThroughs v)
  { s with graph := s.graph.setType v .bottom, phisSeen, phiQueue, passSeen, passQueue }

/-- Set the next pass-through result. -/
def visitPass (s : ResetState) (v : ValueId) (rest : List ValueId) : ResetState :=
  { s with
    passQueue := rest
    done := { s.done with passThroughs := s.done.passThroughs ++ [v] }
    draining := .passThroughs }.visit v

/-- Set the next phi. -/
def visitPhi (s : ResetState) (v : ValueId) (rest : List ValueId) : ResetState :=
  { s with
    phiQueue := rest
    done := { s.done with phis := s.done.phis ++ [v] }
    draining := .phis }.visit v

/-- Set one value, or nothing if both queues are empty. -/
def step? (s : ResetState) : Option ResetState :=
  match s.draining, s.passQueue, s.phiQueue with
  | .passThroughs, v :: rest, _ => some (s.visitPass v rest)
  | _, _, v :: rest => some (s.visitPhi v rest)
  | _, v :: rest, [] => some (s.visitPass v rest)
  | _, [], [] => none

/-- Set values until both queues are empty, at most `fuel` values. -/
def run : Nat → ResetState → ResetState
  | 0, s => s
  | fuel + 1, s =>
    match s.step? with
    | some next => next.run fuel
    | none => s

end ResetState

/-- The outcome of a reset: the graph, what was set (nothing at all if there was
no seed), and every phi that was. -/
structure Reset where
  graph : Graph
  list : Option ResetList
  affected : List ValueId

/-- Set to `bottom` all that hangs on the seeds that are live phis.  A value is
set at most once as a phi and once as a pass-through result, and each is a seed
or entered from an operand. -/
def reset (g : Graph) (seeds : List ValueId) : Reset :=
  let live := ValueId.ascending (seeds.filter g.isLivePhi)
  if live.isEmpty then ⟨g, none, []⟩
  else
    let start : ResetState := ⟨g, live, [], live, [], .empty, .passThroughs⟩
    let last := start.run (live.length + g.readCount)
    ⟨last.graph, some last.done, last.phisSeen⟩

end PhiTypes
end IrAnalysis
