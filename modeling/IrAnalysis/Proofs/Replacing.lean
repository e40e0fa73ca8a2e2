/-
# Replacing a value

A replacement does not go through the graph.  It goes through the uses of the old value, and
rewrites what these name.  As the uses name every reader and nothing else
(`Graph.Filed`), that is as good as going through all operands of the graph: the two leave the same
graph, apart from the uses (`InStep.bare_substitute`).  The uses of the old value are then among
those of the new one (`InStep.usesMoved_substitute`).

The new value may read the old one, and the old one itself.  Both are readers like any other.
-/

import IrAnalysis.Proofs.LockStep

namespace IrAnalysis

namespace Value

/-- The value with its uses left out. -/
def bare (x : Value) : Value := { x with users := [], phiUsers := [] }

/-- The value, reading `new` for `old` if it is a live phi. -/
def readInstead (old new : ValueId) (x : Value) : Value :=
  if x.live then x.mapOperands (Graph.swapped old new) else x

variable {x : Value} {old new : ValueId}

theorem bare_mapOperands {k : List ValueId → List ValueId} :
    (x.mapOperands k).bare = x.bare.mapOperands k := by
  obtain ⟨t, _ | p, us, ps, l⟩ := x <;> rfl

/-- Only a live phi reads anything. -/
theorem live_of_mem_phiOperands (hold : old ∈ x.phiOperands) : x.live = true := by
  by_contra hdead
  rw [phiOperands, livePhi?, if_neg hdead] at hold
  exact absurd hold List.not_mem_nil

/-- Where the old value is not read there is nothing to change. -/
theorem readInstead_of_not_mem (hold : old ∉ x.phiOperands) : x.readInstead old new = x := by
  unfold readInstead
  split_ifs with hlive
  · obtain ⟨t, _ | p, us, ps, l⟩ := x
    · rfl
    · obtain rfl : l = true := hlive
      have hp : old ∉ p.operands := hold
      simp only [mapOperands, Graph.swapped_of_not_mem hp]
  · rfl

end Value

namespace Graph

open Edit

variable {g g' : Graph} {old new v w : ValueId} {i : InstId}

/-- The graph with the uses of all values left out. -/
def bare (g : Graph) : Graph := { g with values := g.values.map Value.bare }

/-- **The graph in which one value is read for another**: where `old` stands among the operands of
an instruction or of a live phi, `new` stands instead. -/
def readInstead (g : Graph) (old new : ValueId) : Graph :=
  { g with
    values := g.values.map (Value.readInstead old new)
    instructions := g.instructions.map <| Option.map fun x =>
      { x with operands := swapped old new x.operands } }

/-- **The uses of `old` are added to those of `new`**, and no others change. -/
structure UsesMoved (g g' : Graph) (old new : ValueId) : Prop where
  unused : (g'.valueAt old).users = [] ∧ (g'.valueAt old).phiUsers = []
  users : ∀ i, (g'.valueAt new).users.count i =
    (g.valueAt new).users.count i + (g.valueAt old).users.count i
  phiUsers : ∀ u, (g'.valueAt new).phiUsers.count u =
    (g.valueAt new).phiUsers.count u + (g.valueAt old).phiUsers.count u
  others : ∀ w, w ≠ old → w ≠ new →
    (g'.valueAt w).users = (g.valueAt w).users ∧ (g'.valueAt w).phiUsers = (g.valueAt w).phiUsers

theorem extent_bare : g.bare.extent = g.extent := by
  simp [extent, bare]

theorem extent_readInstead : (g.readInstead old new).extent = g.extent := by
  simp [extent, readInstead]

theorem valueAt_bare : g.bare.valueAt w = (g.valueAt w).bare := by
  simp only [valueAt, slot?, bare, List.getElem?_map]
  cases g.values[w.index]? <;> rfl

theorem valueAt_readInstead :
    (g.readInstead old new).valueAt w = (g.valueAt w).readInstead old new := by
  simp only [valueAt, slot?, readInstead, List.getElem?_map]
  cases g.values[w.index]? <;> rfl

theorem instruction?_readInstead : (g.readInstead old new).instruction? i =
    (g.instruction? i).map fun x => { x with operands := swapped old new x.operands } := by
  simp only [instruction?, readInstead, List.getElem?_map]
  rcases g.instructions[i.index]? with _ | _ | x <;> rfl

/-! ### The graph that it leaves -/

theorem blocks_substitute : (g.substitute old new).blocks = g.blocks := by
  obtain ⟨told, heq, hblocks, -⟩ := substitute_eq g old new
  rw [heq]
  exact hblocks

/-- No number is given out for a replacement. -/
theorem extent_substitute : (g.substitute old new).extent = g.extent := by
  refine extent_modifyValue.trans ((foldl_keeps extent ?_).trans
    ((foldl_keeps extent ?_).trans extent_modifyValue))
  · exact fun _ _ => extent_modifyValue
  · exact fun _ _ => extent_modifyInstruction

/-- What a value is, its uses aside, once all that read `old` were told to read `new`. -/
theorem InStep.bare_valueAt_substitute (h : InStep g) (hnew : g.HasValue new) :
    ((g.substitute old new).valueAt w).bare = (g.valueAt w).bare.readInstead old new := by
  obtain ⟨told, heq, -, -, hhas, hvalues⟩ := substitute_eq g old new
  have htold : (told.valueAt w).bare = (g.valueAt w).bare.readInstead old new := by
    rw [hvalues]
    by_cases hw : w ∈ (g.valueAt old).phiUsers
    · have hlive : (g.valueAt w).bare.live = true :=
        Value.live_of_mem_phiOperands (h.filed.mem_phiUsers.1 hw)
      rw [if_pos hw, Value.bare_mapOperands, Value.readInstead, if_pos hlive]
      split_ifs <;> rfl
    · have hread : old ∉ (g.valueAt w).bare.phiOperands := mt h.filed.mem_phiUsers.2 hw
      rw [if_neg hw, Value.readInstead_of_not_mem hread]
      split_ifs <;> rfl
  rw [heq, valueAt_modifyValue (Or.inr ((hhas new).2 hnew)), ← htold]
  split_ifs <;> rfl

/-- **Following the uses of a value reaches all that reads it.** -/
theorem InStep.bare_substitute (h : InStep g) (hnew : g.HasValue new) :
    (g.substitute old new).bare = g.bare.readInstead old new := by
  refine eq_of_views ?_ (fun b => ?_) (fun w => ?_) fun i => ?_
  · rw [extent_bare, extent_substitute, extent_readInstead, extent_bare]
  · exact congrArg (fun l => l[b.index]?.join) blocks_substitute
  · rw [valueAt_bare, valueAt_readInstead, valueAt_bare, h.bare_valueAt_substitute hnew]
  · exact (instruction?_substitute h.filed).trans instruction?_readInstead.symm

theorem usesMoved_substitute (hne : old ≠ new) (hnew : g.HasValue new) :
    UsesMoved g (g.substitute old new) old new := by
  have huses := fun w => users_substitute (w := w) hne hnew
  refine ⟨?_, fun i => ?_, fun u => ?_, fun w hold hw => ?_⟩
  · rw [(huses old).1, (huses old).2, if_neg hne, if_neg hne, if_pos rfl, if_pos rfl]
    exact ⟨rfl, rfl⟩
  · rw [(huses new).1, if_pos rfl, List.count_append]
  · rw [(huses new).2, if_pos rfl, List.count_append]
  · rw [(huses w).1, (huses w).2, if_neg hw, if_neg hw, if_neg hold, if_neg hold]
    exact ⟨rfl, rfl⟩

/-- **Replacing one live value by another is a substitution in the whole graph.**  The call goes
through; apart from uses, the graph that it leaves is the one in which `new` stands for `old` in
every operand of a live instruction or phi; `old` has no uses any more, and those it had are added
to the uses of `new`. -/
theorem replaceValue_substitutes (h : Reachable g) (hold : (g.value? old).isSome)
    (hnew : (g.value? new).isSome) (hne : old ≠ new) :
    ∃ g', (replaceValue old new).on g = (.ok (), g') ∧
      g'.bare = g.bare.readInstead old new ∧ UsesMoved g g' old new := by
  have hlive : ∀ {v}, (g.value? v).isSome → (g.valueAt v).live = true := by
    intro v hv
    rw [value?_eq] at hv
    split_ifs at hv with hlive
    · exact hlive
    · exact absurd hv (by simp)
  have hhas := hasValue_of_live (hlive hnew)
  have hok : (replaceValue old new).on g = (.ok (), g.substitute old new) := by
    simp [replaceValue, checkValue_of_live (hlive hold), checkValue_of_live (hlive hnew), hne]
  exact ⟨_, hok, h.inStep.bare_substitute hhas, usesMoved_substitute hne hhas⟩

/-- Two phis of a loop, of which the first reads itself, and the second the first, which gives way
to the second; an instruction reads it twice. -/
def selfReader : Graph :=
  afterAll [.addBlock, .addBlock, .addEdge ⟨0⟩ ⟨1⟩, .addEdge ⟨1⟩ ⟨1⟩,
    .addInstruction ⟨0⟩ (.number 1) [] (some (.prim .int)), .addPhi ⟨1⟩ (.prim .int),
    .addPhi ⟨1⟩ (.prim .int), .appendOperand ⟨1⟩ ⟨0⟩, .appendOperand ⟨1⟩ ⟨1⟩,
    .appendOperand ⟨2⟩ ⟨1⟩, .appendOperand ⟨2⟩ ⟨2⟩,
    .addInstruction ⟨1⟩ .branch [⟨1⟩, ⟨2⟩, ⟨1⟩] none] (Graph.empty none)

theorem replaceValue_substitutes_selfReader :
    (selfReader.value? ⟨1⟩).isSome ∧ (selfReader.value? ⟨2⟩).isSome ∧
      (selfReader.valueAt ⟨1⟩).users = [⟨1⟩, ⟨1⟩] ∧ (selfReader.valueAt ⟨1⟩).phiUsers = [⟨1⟩, ⟨2⟩] ∧
      ∃ g', (replaceValue ⟨1⟩ ⟨2⟩).on selfReader = (.ok (), g') ∧
        g'.bare = selfReader.bare.readInstead ⟨1⟩ ⟨2⟩ ∧ UsesMoved selfReader g' ⟨1⟩ ⟨2⟩ := by
  have hreach : Reachable selfReader := Reachable.afterAll (.empty none) _
  have hold : (selfReader.value? ⟨1⟩).isSome := by decide
  have hnew : (selfReader.value? ⟨2⟩).isSome := by decide
  exact ⟨hold, hnew, by decide, by decide,
    replaceValue_substitutes hreach hold hnew (by decide)⟩

end Graph
end IrAnalysis
