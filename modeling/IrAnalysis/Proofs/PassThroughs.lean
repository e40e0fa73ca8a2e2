/-
# How many operands a pass-through has

The type of what a pass-through defines is computed from its first operand, so it should have one
operand and no other.  That is looked at when an instruction is added, and an edit that
moves instructions or swaps what they read leaves the number of their operands alone
(`Carries`).  Replacing an instruction does not look at it: the operands may be of any number.

What replacements gave is noted beside the graph (`Built`).  A live pass-through has as
many operands as it was given last, and one if it was never replaced (`passThrough_operands`).

| a command | what it does to an instruction that is live afterwards |
| --- | --- |
| `addInstruction`, `split` | is new, or as before |
| `replaceInstruction` | was replaced, or as before |
| the others | as before but for which values are read and the block it lies in |
-/

import IrAnalysis.Proofs.DeadBlocks
import IrAnalysis.Proofs.Refusals

namespace IrAnalysis

/-- What an instruction does, and to how many operands. -/
def Instruction.shape (x : Instruction) : Operation × Nat := (x.operation, x.operands.length)

namespace Graph

open Edit

variable {g g' g₁ : Graph} {b id next : BlockId} {v w old new : ValueId} {i j : InstId}
  {vs : List ValueId} {operation : Operation} {operands : List ValueId} {type : Option Ty}
  {x : Instruction} {s : Operation × Nat} {given : InstId → Option Nat}

/-- The shape of a live instruction. -/
def shape? (g : Graph) (i : InstId) : Option (Operation × Nat) :=
  (g.instruction? i).map Instruction.shape

/-- **The instructions of `g'` were in `g`**, with the same operation and as many operands. -/
def Carries (g g' : Graph) : Prop := ∀ i s, g'.shape? i = some s → g.shape? i = some s

theorem shape?_of_instruction? (hi : g.instruction? i = some x) : g.shape? i = some x.shape := by
  rw [shape?, hi]
  rfl

theorem Carries.refl (g : Graph) : Carries g g := fun _ _ hs => hs

theorem Carries.trans (h : Carries g g₁) (h' : Carries g₁ g') : Carries g g' :=
  fun i s hs => h i s (h' i s hs)

/-! ### Changes that carry all instructions over -/

theorem shape?_congr (hi : g'.instruction? i = g.instruction? i) : g'.shape? i = g.shape? i := by
  rw [shape?, hi, shape?]

theorem carries_of_instruction? (h : ∀ i, g'.instruction? i = g.instruction? i) : Carries g g' :=
  fun i _ hs => (shape?_congr (h i)).symm.trans hs

/-- Whatever value is read for another, as many are read. -/
theorem carries_of_swapped (h : ∀ i, g'.instruction? i =
    (g.instruction? i).map fun x => { x with operands := swapped old new x.operands }) :
    Carries g g' := by
  intro i s hs
  rw [← hs, shape?, shape?, h, Option.map_map]
  refine Option.map_congr fun x _ => ?_
  exact congrArg (x.operation, ·) (List.length_map _).symm

/-- In whatever block they lie, instructions do the same. -/
theorem shape?_of_moved {l : List InstId} (h : g'.instruction? i =
    if i ∈ l then (g.instruction? i).map fun x => { x with block := b } else g.instruction? i) :
    g'.shape? i = g.shape? i := by
  rw [shape?, h]
  split_ifs
  · rw [Option.map_map]
    rfl
  · rfl

theorem carries_eraseInstruction (hi : g.instruction? i = some x) :
    Carries g (g.eraseInstruction i) := by
  intro j s hs
  rw [shape?, instruction?_eraseInstruction hi] at hs
  split_ifs at hs
  · exact absurd hs (by simp)
  · exact hs

theorem Inlined.carries (hone : Inlined g g' v w) : Carries g g' :=
  carries_of_swapped hone.instruction?

theorem InlinedAll.carries (hall : InlinedAll g vs g') : Carries g g' := by
  induction hall with
  | nil g => exact .refl g
  | cons hone _ ih => exact hone.carries.trans ih

theorem JumpDropped.carries (hjump : JumpDropped g id g') : Carries g g' := by
  cases hjump with
  | same => exact .refl g
  | jump _ hi _ => exact carries_eraseInstruction hi

theorem InStep.carries_merge (h : InStep g) : Carries g ((Graph.merge id).on g).2 := by
  rcases merge_outcome g id with ⟨err, herr⟩ | ⟨next, n, -, hon⟩
  · rw [herr]
    exact .refl g
  · obtain ⟨done, rest, g₁, -, hall, hcase⟩ := h.mergeInto_cases id next n.phis
    rw [hon]
    rcases hcase with ⟨err, herr, -⟩ | ⟨-, g₂, hjump, hok⟩
    · rw [herr]
      exact hall.carries
    · rw [hok]
      refine hall.carries.trans (hjump.carries.trans fun i s hs => ?_)
      exact (shape?_of_moved instruction?_absorb).symm.trans hs

theorem InStep.carries_removeUnreachable (h : InStep g) : Carries g g.removeUnreachable.1 := by
  cases hentry : entry? g with
  | none =>
    unfold Graph.removeUnreachable
    rw [hentry]
    exact .refl g
  | some entry =>
    intro i s hs
    obtain ⟨x, hx, rfl⟩ := Option.map_eq_some_iff.1 hs
    exact shape?_of_instruction? (((h.pruned hentry).instruction? i x).1 hx).1

/-! ### Changes that do not -/

theorem shape?_pushInstruction (hops : ∀ v ∈ operands, g.HasValue v) :
    (g.pushInstruction b operation operands type).shape? i =
      if i = g.nextInstruction then some (operation, operands.length) else g.shape? i := by
  rw [shape?, instruction?_pushInstruction hops]
  split_ifs <;> rfl

theorem shape?_splitAt {y : Block} (hid : g.block? id = some y) (index : Nat) :
    (g.splitAt id y index).shape? i =
      if i = (g.cutAt id index).nextInstruction then some (.goto, 0) else g.shape? i := by
  rw [splitAt_eq hid, shape?_pushInstruction (by simp), shape?_of_moved instruction?_cutAt]
  rfl

theorem shape?_rewriteInstruction :
    (g.rewriteInstruction i operation operands).shape? j =
      if j = i then (g.shape? j).map fun _ => (operation, operands.length) else g.shape? j := by
  rw [shape?, instruction?_rewriteInstruction]
  split_ifs
  · rw [shape?, Option.map_map, Option.map_map]
    rfl
  · rfl

/-- An instruction is new, and if it is a pass-through it has one operand. -/
def Fresh (g : Graph) (i : InstId) (s : Operation × Nat) : Prop :=
  g.shape? i = none ∧ (s.1.passesThrough = true → s.2 = 1)

/-- How many operands a replacement gives the instruction, if it goes through. -/
def gives (g : Graph) : Command → InstId → Option Nat
  | .replaceInstruction i operation operands, j =>
    if j = i ∧ (Graph.replaceInstruction i operation operands).refusal? g = none then
      some operands.length
    else none
  | _, _ => none

/-- **What an instruction that is live after a command was before**: it was the same, or it is
new, or the command replaced it. -/
theorem InStep.shape?_after (h : InStep g) (c : Command) (hs : (c.after g).shape? i = some s) :
    (g.gives c i = none ∧ (g.shape? i = some s ∨ g.Fresh i s)) ∨
      g.gives c i = some s.2 ∧ (g.shape? i).isSome := by
  have hcarried : ∀ {g'}, Carries g g' → g'.shape? i = some s →
      g.shape? i = some s ∨ g.Fresh i s := fun hcarries hs => Or.inl (hcarries i s hs)
  cases c with
  | addBlock => exact Or.inl ⟨rfl, Or.inl hs⟩
  | addEdge t u =>
    refine Or.inl ⟨rfl, hcarried (carries_of_instruction? fun i => ?_) hs⟩
    rcases addEdge_outcome g t u with ⟨err, herr⟩ | ⟨-, -, hok⟩
    · rw [Command.after, herr]
    · rw [Command.after, hok]
      rfl
  | addPhi b type =>
    refine Or.inl ⟨rfl, hcarried (carries_of_instruction? fun i => ?_) hs⟩
    rcases addPhi_outcome g b type with ⟨err, herr⟩ | ⟨-, hok⟩
    · rw [Command.after, herr]
    · rw [Command.after, hok]
      rfl
  | appendOperand phi v =>
    refine Or.inl ⟨rfl, hcarried (carries_of_instruction? fun i => ?_) hs⟩
    rcases appendOperand_outcome g phi v with ⟨err, herr⟩ | ⟨-, -, hok⟩
    · rw [Command.after, herr]
    · rw [Command.after, hok]
      rfl
  | addInstruction b operation operands type =>
    refine Or.inl ⟨rfl, ?_⟩
    rcases addInstruction_outcome g b operation operands type with
      ⟨err, herr⟩ | ⟨-, hall, hone, hok⟩
    · rw [Command.after, herr] at hs
      exact Or.inl hs
    · rw [Command.after, hok, shape?_pushInstruction fun v hv => hasValue_of_live (hall v hv)] at hs
      split_ifs at hs with hi
      · obtain rfl := Option.some.inj hs
        exact Or.inr ⟨by rw [hi, shape?, instruction?_nextInstruction]; rfl, hone⟩
      · exact Or.inl hs
  | replaceValue old new =>
    refine Or.inl ⟨rfl, ?_⟩
    rcases replaceValue_outcome g old new with ⟨err, herr⟩ | ⟨-, -, hok⟩
    · rw [Command.after, herr] at hs
      exact Or.inl hs
    · rw [Command.after, hok] at hs
      split_ifs at hs
      · exact Or.inl hs
      · exact hcarried (carries_of_swapped fun i => instruction?_substitute h.filed) hs
  | replaceInstruction j operation operands =>
    rw [gives, refusal?]
    rcases replaceInstruction_outcome g j operation operands with ⟨err, herr⟩ | ⟨-, -, hok⟩
    · rw [Command.after, herr] at hs
      rw [herr]
      exact Or.inl ⟨if_neg (by simp), Or.inl hs⟩
    · rw [Command.after, hok, shape?_rewriteInstruction] at hs
      rw [hok]
      split_ifs at hs with hi
      · obtain ⟨s', hs', rfl⟩ := Option.map_eq_some_iff.1 hs
        exact Or.inr ⟨if_pos ⟨hi, rfl⟩, by rw [hs']; rfl⟩
      · exact Or.inl ⟨if_neg fun hboth => hi hboth.1, Or.inl hs⟩
  | removeInstruction j =>
    refine Or.inl ⟨rfl, ?_⟩
    rcases removeInstruction_outcome g j with ⟨err, herr⟩ | ⟨⟨y, hy, -⟩, hok⟩
    · rw [Command.after, herr] at hs
      exact Or.inl hs
    · rw [Command.after, hok] at hs
      exact hcarried (carries_eraseInstruction hy) hs
  | split b index =>
    refine Or.inl ⟨rfl, ?_⟩
    rcases split_outcome g b index with ⟨err, herr⟩ | ⟨y, hy, -, hok⟩
    · rw [Command.after, herr] at hs
      exact Or.inl hs
    · rw [Command.after, hok, shape?_splitAt hy] at hs
      split_ifs at hs with hi
      · obtain rfl := Option.some.inj hs
        have hnew : (g.cutAt b index).shape? i = none := by
          rw [hi, shape?, instruction?_nextInstruction]
          rfl
        rw [shape?_of_moved instruction?_cutAt] at hnew
        exact Or.inr ⟨hnew, fun hgoto => absurd hgoto (by decide)⟩
      · exact Or.inl hs
  | merge b => exact Or.inl ⟨rfl, hcarried h.carries_merge hs⟩
  | removeEdge t u =>
    refine Or.inl ⟨rfl, hcarried (carries_of_instruction? fun i => ?_) hs⟩
    rcases removeEdge_outcome g t u with ⟨err, herr⟩ | ⟨g', hg', hok⟩
    · rw [Command.after, herr]
    · obtain ⟨-, -, -, -, -, -, -, hinst⟩ := h.unlink?_reads hg'
      rw [Command.after, hok]
      exact hinst i
  | removeUnreachable => exact Or.inl ⟨rfl, hcarried h.carries_removeUnreachable hs⟩

/-! ### What replacements gave -/

/-- What is noted after a command, given what was noted before: what the command gives, and
otherwise what was noted of instructions that were live. -/
def noted (g : Graph) (c : Command) (given : InstId → Option Nat) (i : InstId) : Option Nat :=
  (g.gives c i).or ((g.shape? i).bind fun _ => given i)

/-- **The graphs that the public edits build, with a note for each instruction** of how many
operands it was given when it was last replaced. -/
inductive Built : Graph → (InstId → Option Nat) → Prop
  | empty (method : Option MethodId) : Built (empty method) fun _ => none
  | edit {g : Graph} {given : InstId → Option Nat} (c : Command) :
      Built g given → Built (c.after g) (g.noted c given)
  | retype {g g' : Graph} {given : InstId → Option Nat} :
      SameButTypes g g' → Built g given → Built g' given

/-- The graphs of which something is noted are all that can be built. -/
theorem reachable_iff_built : Reachable g ↔ ∃ given, Built g given := by
  constructor
  · intro h
    induction h with
    | empty method => exact ⟨_, .empty method⟩
    | edit c _ ih =>
      obtain ⟨given, hgiven⟩ := ih
      exact ⟨_, hgiven.edit c⟩
    | retype hsame _ ih =>
      obtain ⟨given, hgiven⟩ := ih
      exact ⟨given, .retype hsame hgiven⟩
  · rintro ⟨given, h⟩
    induction h with
    | empty method => exact .empty method
    | edit c _ ih => exact .edit c ih
    | retype hsame _ ih => exact .retype hsame ih

/-- The graph that a run of commands leaves, and what is noted by then. -/
def afterNoting (cs : List Command) (g : Graph) (given : InstId → Option Nat) :
    Graph × (InstId → Option Nat) :=
  cs.foldl (fun s c => (c.after s.1, s.1.noted c s.2)) (g, given)

theorem Built.afterNoting (h : Built g given) (cs : List Command) :
    Built (afterNoting cs g given).1 (afterNoting cs g given).2 := by
  induction cs generalizing g given with
  | nil => exact h
  | cons c cs ih => exact ih (h.edit c)

theorem Built.passThrough_shape (h : Built g given) (hs : g.shape? i = some s)
    (hp : s.1.passesThrough = true) : s.2 = (given i).getD 1 := by
  induction h generalizing i s with
  | empty method => exact absurd hs (by simp [shape?, instruction?, Graph.empty])
  | @edit g given c hbuilt ih =>
    have hstep := (reachable_iff_built.2 ⟨given, hbuilt⟩).inStep
    rw [noted]
    rcases hstep.shape?_after c hs with ⟨hgives, hsame | ⟨hnew, hone⟩⟩ | ⟨hgives, -⟩
    · rw [hgives, hsame]
      exact ih hsame hp
    · -- Of a new instruction nothing can be noted yet.
      rw [hgives, hnew]
      exact hone hp
    · rw [hgives]
      rfl
  | retype hsame _ ih => exact ih ((shape?_congr (hsame.instruction? i)).symm.trans hs) hp

/-- **How many operands a live pass-through has**: as many as it was given when it was last
replaced, and one if it never was.  If it has one the type of its result is computed from the type
of that operand. -/
theorem passThrough_operands (h : Built g given) (hi : g.instruction? i = some x)
    (hp : x.operation.passesThrough = true) :
    x.operands.length = (given i).getD 1 ∧
      ((given i).getD 1 = 1 → ∃ input, x.operands = [input] ∧ ∀ hierarchy current,
        PhiTypes.passThroughType hierarchy g current x =
          x.operation.tryOutputType hierarchy (g.typeAt input)) := by
  have hlen : x.operands.length = (given i).getD 1 :=
    h.passThrough_shape (shape?_of_instruction? hi) hp
  refine ⟨hlen, fun hone => ?_⟩
  obtain ⟨input, hinput⟩ := List.length_eq_one_iff.1 (hlen.trans hone)
  refine ⟨input, hinput, fun hierarchy current => ?_⟩
  rw [PhiTypes.passThroughType, if_pos hp, hinput]

/-- Two moves of a number, the first of which was replaced by a move with two operands. -/
def movesTwo : Graph × (InstId → Option Nat) :=
  afterNoting [.addBlock, .addInstruction ⟨0⟩ (.number 1) [] (some (.prim .int)),
    .addInstruction ⟨0⟩ .move [⟨0⟩] (some (.prim .int)),
    .addInstruction ⟨0⟩ .move [⟨0⟩] (some (.prim .int)),
    .replaceInstruction ⟨1⟩ .move [⟨0⟩, ⟨2⟩]] (Graph.empty none) fun _ => none

theorem passThrough_operands_movesTwo :
    Built movesTwo.1 movesTwo.2 ∧
      movesTwo.1.instruction? ⟨1⟩ = some ⟨⟨0⟩, .move, [⟨0⟩, ⟨2⟩], some ⟨1⟩⟩ ∧
      [(⟨0⟩ : ValueId), ⟨2⟩].length = (movesTwo.2 ⟨1⟩).getD 1 ∧
      movesTwo.1.instruction? ⟨2⟩ = some ⟨⟨0⟩, .move, [⟨0⟩], some ⟨2⟩⟩ ∧ movesTwo.2 ⟨2⟩ = none ∧
      ∃ input, [(⟨0⟩ : ValueId)] = [input] ∧ ∀ hierarchy current,
        PhiTypes.passThroughType hierarchy movesTwo.1 current ⟨⟨0⟩, .move, [⟨0⟩], some ⟨2⟩⟩ =
          Operation.move.tryOutputType hierarchy (movesTwo.1.typeAt input) := by
  have hbuilt : Built movesTwo.1 movesTwo.2 := (Built.empty none).afterNoting _
  have hfirst : movesTwo.1.instruction? ⟨1⟩ = some ⟨⟨0⟩, .move, [⟨0⟩, ⟨2⟩], some ⟨1⟩⟩ := by decide
  have hsecond : movesTwo.1.instruction? ⟨2⟩ = some ⟨⟨0⟩, .move, [⟨0⟩], some ⟨2⟩⟩ := by decide
  exact ⟨hbuilt, hfirst, (passThrough_operands hbuilt hfirst rfl).1, hsecond, by decide,
    (passThrough_operands hbuilt hsecond rfl).2 (by decide)⟩

/-- A replacement does not look at the number of operands: a move reads two values, in a graph that
passes its check. -/
theorem replaced_move_reads_two :
    let g := afterAll [.addBlock, .addInstruction ⟨0⟩ (.number 1) [] (some (.prim .int)),
      .addInstruction ⟨0⟩ .null [] (some .null),
      .addInstruction ⟨0⟩ .move [⟨0⟩] (some (.prim .int)),
      .replaceInstruction ⟨2⟩ .move [⟨0⟩, ⟨1⟩]] (Graph.empty none)
    Reachable g ∧ g.verify = .ok () ∧ ∃ x, g.instruction? ⟨2⟩ = some x ∧
      x.operation.passesThrough = true ∧ x.operands.length ≠ 1 :=
  ⟨Reachable.afterAll (.empty none) _, rfl, ⟨⟨0⟩, .move, [⟨0⟩, ⟨1⟩], some ⟨2⟩⟩, by decide, rfl,
    by decide⟩

end Graph
end IrAnalysis
