/-
# What an update reports

Besides the types an update gives out which values a later pass should look at again, and
in how many steps it came to rest.  Both are gathered on the way, at every step of the
recomputation, and both are told by the graph alone:

* the affected values are the results of the ordinary instructions that read a reset value
  whose type is not `bottom` in the end (`update_notes_affected`): a type that left
  `bottom` never returns there, so what was noted at some step is so at the end (`Noted`);
* the steps are at least as many as the reset phis, which wait at the start, and exceed
  them by no more than the types can climb, counted once for each operand slot that holds a
  reset value (`update_iterations_le`): a step that queues readers takes as much from the
  way that is left (`Counted`).

What holds at the start and is kept by every step holds of what an update gives out
(`update_keeps`).
-/

import IrAnalysis.Proofs.UpdateOrder

namespace IrAnalysis

/-! ### What a value is computed from -/

namespace Graph

variable {g : Graph} {seeds : List ValueId} {u v : ValueId} {i : InstId} {p : Phi}

/-- What a value is computed from: the operands of the phi, or of the live instruction, that
defines it. -/
def inputs (g : Graph) (v : ValueId) : List ValueId :=
  match (g.slot? v).map Value.definition with
  | some (.phi p) => p.operands
  | some (.instruction i) => ((g.instruction? i).map (·.operands)).getD []
  | none => []

theorem inputs_of_livePhi? (hp : (g.valueAt v).livePhi? = some p) : g.inputs v = p.operands := by
  obtain ⟨hlive, hdef⟩ := Value.livePhi?_eq_some.1 hp
  obtain ⟨x, hx⟩ := Option.isSome_iff_exists.1 (hasValue_of_live hlive)
  rw [valueAt_of_slot? hx] at hdef
  simp only [inputs, hx, Option.map_some, hdef]

theorem inputs_of_definer? (hi : (g.valueAt v).definer? = some i) :
    g.inputs v = g.operandsOf i := by
  obtain ⟨hlive, hdef⟩ := Value.definer?_eq_some.1 hi
  obtain ⟨x, hx⟩ := Option.isSome_iff_exists.1 (hasValue_of_live hlive)
  rw [valueAt_of_slot? hx] at hdef
  simp only [inputs, hx, Option.map_some, hdef, operandsOf]

theorem InStep.mem_readingOrdinaries (h : InStep g) : u ∈ g.readingOrdinaries v ↔
    ∃ i x, g.instruction? i = some x ∧ x.operation.passesThrough = false ∧ v ∈ x.operands ∧
      x.output = some u := by
  simp only [readingOrdinaries, List.mem_filterMap, readingInstructions_eq, h.filed.mem_users,
    ordinaryOutput?, Option.bind_eq_bind, Option.bind_eq_some_iff, Option.ite_none_left_eq_some,
    Bool.not_eq_true]
  constructor
  · rintro ⟨i, hv, x, hx, hpass, hout⟩
    rw [operandsOf_of_instruction? hx] at hv
    exact ⟨i, x, hx, hpass, hv, hout⟩
  · rintro ⟨i, x, hx, hpass, hv, hout⟩
    rw [← operandsOf_of_instruction? hx] at hv
    exact ⟨i, hv, x, hx, hpass, hout⟩

/-- Only the instruction that defines a value gives it out. -/
theorem InStep.passThroughOutput?_eq_some (h : InStep g) {x : Instruction}
    (hx : g.instruction? i = some x) (hpass : x.operation.passesThrough = true)
    (hout : x.output = some u) {j : InstId} : g.passThroughOutput? j = some u ↔ j = i := by
  constructor
  · intro hj
    obtain ⟨y, hy, hyout⟩ := Option.bind_eq_some_iff.1 hj
    rw [Option.ite_none_right_eq_some] at hyout
    have hdef := h.definer?_of_output hx hout
    rw [h.definer?_of_output hy hyout.2] at hdef
    exact Option.some.inj hdef
  · rintro rfl
    simp [passThroughOutput?, hx, hpass, hout]

/-- **A value counts among the readers of another as often as it is computed from it.** -/
theorem InStep.count_readers (h : InStep g) (hu : g.Hangs seeds u) (v : ValueId) :
    (g.readers v).count u = (g.inputs u).count v := by
  have hphis : (g.readingPhis v).count u = (g.valueAt u).phiOperands.count v := by
    rw [readingPhis_eq, h.filed.phiUses]
  rw [readers, List.count_append, hphis]
  rcases h.hangs_cases hu with ⟨p, hp⟩ | ⟨x, w, hp, hx, hpass, -, -⟩
  · have hnone : (g.readingPassThroughs v).count u = 0 := by
      refine List.count_eq_zero.2 fun hmem => ?_
      obtain ⟨i, x, hx, -, -, hout⟩ := h.mem_readingPassThroughs.1 hmem
      have hdef := h.definer?_of_output hx hout
      rw [Value.definer?_of_livePhi? hp] at hdef
      exact absurd hdef (by simp)
    rw [hnone, inputs_of_livePhi? hp, Value.phiOperands_of_livePhi? hp, Nat.add_zero]
  · obtain ⟨i, hi, hix⟩ := Option.bind_eq_some_iff.1 hx
    have hout := h.output_of_definer? hi hix
    have hpasses : (g.readingPassThroughs v).count u = (g.operandsOf i).count v := by
      rw [readingPassThroughs, readingInstructions_eq, List.count_filterMap, ← h.filed.uses]
      refine List.countP_congr fun j _ => ?_
      rw [beq_iff_eq, beq_iff_eq]
      exact h.passThroughOutput?_eq_some hix hpass hout
    rw [hpasses, inputs_of_definer? hi, Value.phiOperands, hp, Option.map_none, Option.getD_none,
      List.count_nil, Nat.zero_add]

end Graph

namespace PhiTypes

open IrAnalysis.Graph

variable {h : Hierarchy} {g : Graph} {seeds : List ValueId} {r r' : Recomputation} {u v : ValueId}
  {rest : List ValueId}

/-! ### The run behind an update -/

/-- Where the recomputation starts: the reset graph, and the reset phis waiting. -/
def startOf (g : Graph) (seeds : List ValueId) : Recomputation :=
  ⟨(reset g seeds).graph, (reset g seeds).affected, .empty⟩

/-- The reset values that wait at the start are the phis, each once, and all reset values are at
`bottom`. -/
theorem startOf_spec (hg : InStep g) (seeds : List ValueId) :
    (startOf g seeds).queue.Nodup ∧
      (∀ v, v ∈ (startOf g seeds).queue ↔ g.Hangs seeds v ∧ g.isLivePhi v = true) ∧
      ∀ v, g.Hangs seeds v → (startOf g seeds).graph.typeAt v = .bottom := by
  unfold startOf
  rcases reset_spec hg seeds with ⟨hnone, hno⟩ | ⟨l, -, hr⟩
  · rw [hnone]
    exact ⟨List.nodup_nil, fun v => iff_of_false List.not_mem_nil fun hv => hno v hv.1,
      fun v hv => absurd hv (hno v)⟩
  · refine ⟨hr.affected ▸ hr.nodupPhis, fun v => ?_, fun v => (hr.types v).1⟩
    show v ∈ (reset g seeds).affected ↔ _
    rw [hr.affected, hr.phis, isLivePhi_iff]

/-- An update that gives a result gives what its recomputation ended with. -/
theorem update_eq_last {m : Renaming} {l : ResetList} {u : Update} {last : Recomputation}
    (hu : update h m g seeds = .ok u) (hl : (reset g seeds).list = some l)
    (hrun : (⟨(reset g seeds).graph, l.phis, .empty⟩ : Recomputation).run h
      (stepBound h (reset g seeds).graph l.phis) = .ok last) :
    u.graph = last.graph ∧ u.affected = last.affected := by
  simp only [update, hl, recompute, hrun, bind, Except.bind] at hu
  split at hu
  · exact absurd hu (by simp)
  · next p hp =>
    obtain rfl := Except.ok.inj hu
    split at hp
    · exact absurd hp (by simp [throw, throwThe, MonadExceptOf.throw])
    · split at hp
      · exact absurd hp (by simp)
      · split at hp
        · obtain rfl := Except.ok.inj hp
          exact ⟨rfl, rfl⟩
        · exact absurd hp (by simp [throw, throwThe, MonadExceptOf.throw])

/-- **What holds at the start and is kept by every step holds of what an update gives out.** -/
theorem update_keeps {kept : Recomputation → Prop} (hg : InStep g) (hb : g.DimensionedBounds)
    (ht : ProperTypes g) (seeds : List ValueId) (hstart : kept (startOf g seeds))
    (hstep : ∀ r v rest r', Climbing h g seeds r → r.queue = v :: rest →
      Stepped h g r v rest r' → kept r → kept r') :
    ∃ u, update h (.ok id) g seeds = .ok u ∧ EmptiesQueue h g seeds u.graph ∧
      kept ⟨u.graph, [], u.affected⟩ := by
  obtain ⟨u, hu, hs⟩ := update_spec_of_dimensioned (h := h) hg hb ht (f := id) seeds
    fun v _ _ _ => Ty.rename_id (ht.normal v)
  refine ⟨u, hu, hs.drained, ?_⟩
  rcases reset_spec hg seeds with ⟨hnone, -⟩ | ⟨l, hl, hr⟩
  · rw [update, hnone] at hu
    obtain rfl := Except.ok.inj hu
    rwa [startOf, hnone] at hstart
  · obtain ⟨last, hrun, hempty, -⟩ := hs.drained l hl
    rw [startOf, hr.affected] at hstart
    obtain ⟨-, hkept⟩ := (hr.climbing hg ht).run_keeps hg hb hrun hstart hstep
    obtain ⟨hgraph, haffected⟩ := update_eq_last hu hl hrun
    rw [hgraph, haffected, ← hempty]
    exact hkept

/-! ### The values that are affected -/

/-- **The values noted so far** are the results of the ordinary instructions that read a reset
value which has left `bottom`. -/
structure Noted (g : Graph) (seeds : List ValueId) (r : Recomputation) : Prop where
  once : r.affected.values.Nodup
  mem : ∀ u, u ∈ r.affected.values ↔
    ∃ v, g.Hangs seeds v ∧ r.graph.typeAt v ≠ .bottom ∧ u ∈ g.readingOrdinaries v

/-- A type that climbs leaves `bottom`. -/
theorem Climbing.flow_ne_bottom (hr : Climbing h g seeds r) (hv : g.Hangs seeds v)
    (hne : g.flow h r.graph.typeAt v ≠ r.graph.typeAt v) : g.flow h r.graph.typeAt v ≠ .bottom := by
  intro hbottom
  have hle := hr.below v hv
  rw [hbottom, Ty.le_bottom_iff (hr.normal v)] at hle
  exact hne (hbottom.trans hle.symm)

theorem Noted.start (hg : InStep g) : Noted g seeds (startOf g seeds) := by
  refine ⟨List.nodup_nil, fun u => iff_of_false List.not_mem_nil ?_⟩
  rintro ⟨v, hv, hne, -⟩
  exact hne ((startOf_spec hg seeds).2.2 v hv)

theorem Noted.step (hg : InStep g) (hr : Climbing h g seeds r) (hq : r.queue = v :: rest)
    (hs : Stepped h g r v rest r') (hn : Noted g seeds r) : Noted g seeds r' := by
  cases hs with
  | settled _ => exact ⟨hn.once, hn.mem⟩
  | climbed hne =>
    have hv : g.Hangs seeds v := hr.queued v (hq ▸ List.mem_cons_self)
    have hraised := hr.raised hg hv
    have hleft := hr.flow_ne_bottom hv hne
    refine ⟨nodup_entered _ hn.once, fun u => ?_⟩
    rw [mem_entered, hn.mem]
    constructor
    · rintro (⟨w, hw, hwne, hu⟩ | hu)
      · refine ⟨w, hw, ?_, hu⟩
        by_cases hwv : w = v
        · rw [hwv, hraised.self]
          exact hleft
        · rw [hraised.other w hwv]
          exact hwne
      · refine ⟨v, hv, ?_, hu⟩
        rw [hraised.self]
        exact hleft
    · rintro ⟨w, hw, hwne, hu⟩
      by_cases hwv : w = v
      · exact Or.inr (hwv ▸ hu)
      · rw [hraised.other w hwv] at hwne
        exact Or.inl ⟨w, hw, hwne, hu⟩

/-- **An update notes what it affects, and each value once**: the results of the live instructions
that are no pass-through and read a reset value whose type is not `bottom` in the end. -/
theorem update_notes_affected (hg : g.Reachable) (ht : ProperTypes g) (hb : g.DimensionedBounds)
    (seeds : List ValueId) :
    ∃ u, update h (.ok id) g seeds = .ok u ∧ EmptiesQueue h g seeds u.graph ∧
      u.affected.values.Nodup ∧
      ∀ v, v ∈ u.affected.values ↔ ∃ i x w, g.instruction? i = some x ∧
        x.operation.passesThrough = false ∧ x.output = some v ∧ w ∈ x.operands ∧
        w ∈ resetSet g seeds ∧ u.graph.typeAt w ≠ .bottom := by
  have hstep := hg.inStep
  obtain ⟨u, hu, hdrained, hn⟩ := update_keeps (h := h) hstep hb ht seeds (Noted.start hstep)
    fun r v rest r' hr hq hs hn => hn.step hstep hr hq hs
  refine ⟨u, hu, hdrained, hn.once, fun v => ?_⟩
  rw [hn.mem]
  constructor
  · rintro ⟨w, hw, hne, hv⟩
    obtain ⟨i, x, hx, hpass, hread, hout⟩ := hstep.mem_readingOrdinaries.1 hv
    exact ⟨i, x, w, hx, hpass, hout, hread, (mem_resetSet hstep).2 hw, hne⟩
  · rintro ⟨i, x, w, hx, hpass, hout, hread, hw, hne⟩
    exact ⟨w, (mem_resetSet hstep).1 hw, hne,
      hstep.mem_readingOrdinaries.2 ⟨i, x, hx, hpass, hread, hout⟩⟩

/-- Two phis: nothing flows into the first but itself, and a number into the second, which a move
reads.  One call reads the first phi and another the move. -/
def twoPhis : Graph :=
  afterAll [.addBlock, .addBlock, .addEdge ⟨0⟩ ⟨1⟩,
    .addInstruction ⟨0⟩ (.argument 0) [] (some (.prim .int)),
    .addPhi ⟨1⟩ .top, .appendOperand ⟨1⟩ ⟨1⟩, .addPhi ⟨1⟩ .top, .appendOperand ⟨2⟩ ⟨0⟩,
    .addInstruction ⟨1⟩ .move [⟨2⟩] (some .top),
    .addInstruction ⟨1⟩ (.invoke ⟨⟨0⟩, .static⟩) [⟨1⟩] (some (.prim .int)),
    .addInstruction ⟨1⟩ (.invoke ⟨⟨0⟩, .static⟩) [⟨3⟩] (some (.prim .int))] (Graph.empty none)

/-- The call that reads the move is noted, and the one that reads the first phi, which stays at
`bottom`, is not. -/
theorem update_notes_affected_twoPhis : resetSet twoPhis [⟨1⟩, ⟨2⟩] = [⟨1⟩, ⟨2⟩, ⟨3⟩] ∧
    ∃ u, update (.ofRoot ⟨0⟩) (.ok id) twoPhis [⟨1⟩, ⟨2⟩] = .ok u ∧
      u.affected.values = [⟨5⟩] ∧ u.graph.typeAt ⟨1⟩ = .bottom ∧
      ∀ v, v ∈ u.affected.values ↔ ∃ i x w, twoPhis.instruction? i = some x ∧
        x.operation.passesThrough = false ∧ x.output = some v ∧ w ∈ x.operands ∧
        w ∈ resetSet twoPhis [⟨1⟩, ⟨2⟩] ∧ u.graph.typeAt w ≠ .bottom := by
  have hreset : resetSet twoPhis [⟨1⟩, ⟨2⟩] = [⟨1⟩, ⟨2⟩, ⟨3⟩] := by decide
  obtain ⟨u, hu, -, -, hmem⟩ := update_notes_affected (h := .ofRoot ⟨0⟩)
    (Reachable.afterAll (.empty none) _) (.of_values (by decide)) (forall_instruction? (by decide))
    (g := twoPhis) [⟨1⟩, ⟨2⟩]
  obtain ⟨t, ht⟩ : ∃ t, update (.ofRoot ⟨0⟩) (.ok id) twoPhis [⟨1⟩, ⟨2⟩] = .ok t ∧
    t.affected.values = [⟨5⟩] ∧ t.graph.typeAt ⟨1⟩ = .bottom := ⟨_, rfl, rfl, rfl⟩
  obtain rfl := Except.ok.inj (ht.1.symm.trans hu)
  exact ⟨hreset, t, hu, ht.2.1, ht.2.2, hmem⟩

/-! ### The steps that are counted -/

/-- The phis that an update resets. -/
def resetPhis (g : Graph) (seeds : List ValueId) : Finset ValueId :=
  (resetSet g seeds).toFinset.filter (g.isLivePhi ·)

/-- How many operand slots of the reset values hold a reset value. -/
def resetSlots (g : Graph) (seeds : List ValueId) : Nat :=
  ∑ v ∈ (resetSet g seeds).toFinset, (g.inputs v).countP (· ∈ (resetSet g seeds).toFinset)

/-- **Every slot that holds a reset value is a use of that value.** -/
theorem sum_readers (hg : InStep g) (seeds : List ValueId) :
    ∑ v ∈ (resetSet g seeds).toFinset, (g.readers v).length = resetSlots g seeds := by
  have hhangs : ∀ {v}, v ∈ (resetSet g seeds).toFinset ↔ g.Hangs seeds v := by
    intro v
    rw [List.mem_toFinset, mem_resetSet hg]
  calc ∑ v ∈ (resetSet g seeds).toFinset, (g.readers v).length
      = ∑ v ∈ (resetSet g seeds).toFinset, ∑ u ∈ (resetSet g seeds).toFinset,
          (g.readers v).count u := by
        refine Finset.sum_congr rfl fun v hv => ?_
        rw [← countP_mem_eq_sum, eq_comm, List.countP_eq_length]
        exact fun u hu => decide_eq_true (hhangs.2 (hg.hangs_of_mem_readers (hhangs.1 hv) hu))
    _ = ∑ u ∈ (resetSet g seeds).toFinset, ∑ v ∈ (resetSet g seeds).toFinset,
          (g.readers v).count u := Finset.sum_comm
    _ = resetSlots g seeds := by
        refine Finset.sum_congr rfl fun u hu => ?_
        rw [countP_mem_eq_sum]
        exact Finset.sum_congr rfl fun v _ => hg.count_readers (hhangs.1 hu) v

/-- How far the types may still climb, counted once for each reader. -/
def wayLeft (h : Hierarchy) (g : Graph) (seeds : List ValueId) (r : Recomputation) : Nat :=
  ∑ v ∈ (resetSet g seeds).toFinset,
    (h.height + 3 - (r.graph.typeAt v).rank h) * (g.readers v).length

/-- **The steps made and the values that wait** are at least the phis that waited at the start, and
more only by what the types have climbed, counted once for each reader. -/
structure Counted (h : Hierarchy) (g : Graph) (seeds : List ValueId) (r : Recomputation) :
    Prop where
  lower : (resetPhis g seeds).card ≤ r.affected.iterations + r.queue.length
  upper : r.affected.iterations + r.queue.length + wayLeft h g seeds r ≤
    (resetPhis g seeds).card + (h.height + 3) * resetSlots g seeds

theorem length_queue_startOf (hg : InStep g) (seeds : List ValueId) :
    (startOf g seeds).queue.length = (resetPhis g seeds).card := by
  obtain ⟨hnodup, hmem, -⟩ := startOf_spec hg seeds
  rw [← List.toFinset_card_of_nodup hnodup]
  refine congrArg Finset.card (Finset.ext fun v => ?_)
  rw [List.mem_toFinset, hmem, resetPhis, Finset.mem_filter, List.mem_toFinset, mem_resetSet hg]

theorem Counted.start (hg : InStep g) : Counted h g seeds (startOf g seeds) := by
  have hqueue := length_queue_startOf hg seeds
  have hiterations : (startOf g seeds).affected.iterations = 0 := rfl
  have hway : wayLeft h g seeds (startOf g seeds) ≤ (h.height + 3) * resetSlots g seeds := by
    rw [← sum_readers hg, Finset.mul_sum]
    exact Finset.sum_le_sum fun v _ => Nat.mul_le_mul_right _ (Nat.sub_le _ _)
  exact ⟨by omega, by omega⟩

/-- A step that queues readers takes as much from the way that is left. -/
theorem Counted.step (hg : InStep g) (hr : Climbing h g seeds r) (hq : r.queue = v :: rest)
    (hs : Stepped h g r v rest r') (hc : Counted h g seeds r) : Counted h g seeds r' := by
  have hlen : r.queue.length = rest.length + 1 := by rw [hq, List.length_cons]
  have hlower := hc.lower
  have hupper := hc.upper
  cases hs with
  | settled _ =>
    refine ⟨?_, ?_⟩
    · simp only
      omega
    · simp only [wayLeft] at hupper ⊢
      omega
  | climbed hne =>
    have hv : g.Hangs seeds v := hr.queued v (hq ▸ List.mem_cons_self)
    have hraised := hr.raised hg hv
    have hqueue := length_entered rest (g.readers v)
    have hmem := List.mem_toFinset.2 ((mem_resetSet hg).2 hv)
    have hway := hraised.sum_way_le (f := fun w => w) hr.normal (hr.below v hv) hne
      Function.injective_id hmem fun w => (g.readers w).length
    refine ⟨?_, ?_⟩
    · simp only
      omega
    · simp only [wayLeft] at hupper ⊢
      omega

/-- **How many steps an update takes**: at least one for each reset phi, and at most as many more as
types below a depth of `D` can climb, once for each slot of a reset value that holds a reset
value. -/
theorem update_iterations_le (hg : g.Reachable) (ht : ProperTypes g) (hb : g.DimensionedBounds)
    (seeds : List ValueId) {D : Nat} (hD : ∀ c, h.depth c ≤ D) :
    ∃ u, update h (.ok id) g seeds = .ok u ∧ EmptiesQueue h g seeds u.graph ∧
      (resetPhis g seeds).card ≤ u.affected.iterations ∧
      u.affected.iterations ≤ (resetPhis g seeds).card + (D + 4) * resetSlots g seeds := by
  have hstep := hg.inStep
  obtain ⟨u, hu, hdrained, hc⟩ := update_keeps (h := h) hstep hb ht seeds (Counted.start hstep)
    fun r v rest r' hr hq hs hc => hc.step hstep hr hq hs
  have hlower := hc.lower
  have hupper := hc.upper
  simp only [List.length_nil, Nat.add_zero] at hlower hupper
  have hheight : (h.height + 3) * resetSlots g seeds ≤ (D + 4) * resetSlots g seeds :=
    Nat.mul_le_mul_right _ (Nat.add_le_add_right (Hierarchy.height_le hD) 3)
  exact ⟨u, hu, hdrained, hlower, by omega⟩

/-- Two phis are reset, and two slots hold one of them: of the twelve steps that are allowed the
update makes three. -/
theorem update_iterations_le_twoPhis : (resetPhis twoPhis [⟨1⟩, ⟨2⟩]).card = 2 ∧
    resetSlots twoPhis [⟨1⟩, ⟨2⟩] = 2 ∧
    ∃ u, update (.ofRoot ⟨0⟩) (.ok id) twoPhis [⟨1⟩, ⟨2⟩] = .ok u ∧ u.affected.iterations = 3 ∧
      2 ≤ u.affected.iterations ∧ u.affected.iterations ≤ 2 + (1 + 4) * 2 := by
  have hphis : (resetPhis twoPhis [⟨1⟩, ⟨2⟩]).card = 2 := by decide
  have hslots : resetSlots twoPhis [⟨1⟩, ⟨2⟩] = 2 := by decide
  obtain ⟨u, hu, -, hlower, hupper⟩ := update_iterations_le (h := .ofRoot ⟨0⟩)
    (Reachable.afterAll (.empty none) _) (.of_values (by decide)) (forall_instruction? (by decide))
    (g := twoPhis) [⟨1⟩, ⟨2⟩] (Hierarchy.depth_ofRoot_le ⟨0⟩)
  obtain ⟨t, ht⟩ : ∃ t, update (.ofRoot ⟨0⟩) (.ok id) twoPhis [⟨1⟩, ⟨2⟩] = .ok t ∧
    t.affected.iterations = 3 := ⟨_, rfl, rfl⟩
  obtain rfl := Except.ok.inj (ht.1.symm.trans hu)
  rw [hphis] at hlower hupper
  rw [hslots] at hupper
  exact ⟨hphis, hslots, t, hu, ht.2, hlower, hupper⟩

end PhiTypes
end IrAnalysis
