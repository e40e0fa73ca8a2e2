/-
# What a graph that passes its check is known to be

`Graph.verify` counts and looks for members, in one direction: that a phi has enough operands,
that a value lists who reads it.  The edits keep the rest, so the check is exact.  A reachable graph
passes if and only if every phi of a live block has its operands and nothing that is live reads
what was removed (`NothingMissing`).  Then the lists are in lock step, all that is read is live and
lists each place that reads it (`ReadsListed`), and the operands of a phi go with the predecessors
of its block place by place (`Paired`).
-/

import IrAnalysis.Proofs.LockStep
import IrAnalysis.Proofs.Complete
import Mathlib.Data.List.Forall2

namespace IrAnalysis
namespace Graph

variable {g : Graph} {b : BlockId} {v w : ValueId} {i : InstId} {x : Block} {y : Value} {p : Phi}

/-- The value was there and is no longer live. -/
def IsRemoved (g : Graph) (w : ValueId) : Prop := ∃ x, g.slot? w = some x ∧ x.live = false

/-- **Phis have one operand for each predecessor, and nothing live reads a removed value.** -/
structure NothingMissing (g : Graph) : Prop where
  filled : ∀ b x v, g.block? b = some x → v ∈ x.phis →
    ∃ y p, g.value? v = some y ∧ y.phi? = some p ∧ p.operands.length = x.predecessors.length
  phis : ∀ v y p w, g.value? v = some y → y.phi? = some p → w ∈ p.operands → ¬ g.IsRemoved w
  instructions : ∀ i x w, g.instruction? i = some x → w ∈ x.operands → ¬ g.IsRemoved w

/-- **What is read is live**, and lists who reads it once for each operand. -/
structure ReadsListed (g : Graph) : Prop where
  phis : ∀ v y p w, g.value? v = some y → y.phi? = some p → w ∈ p.operands →
    ∃ z, g.value? w = some z ∧ z.phiUsers.count v = p.operands.count w
  instructions : ∀ i x w, g.instruction? i = some x → w ∈ x.operands →
    ∃ z, g.value? w = some z ∧ z.users.count i = x.operands.count w

/-- A live block `s` leads to the block `b`, and a live value `w` is read by the phi `v`. -/
structure FlowsIn (g : Graph) (b : BlockId) (v : ValueId) (s : BlockId) (w : ValueId) : Prop where
  edge : ∃ z, g.block? s = some z ∧ b ∈ z.successors
  use : ∃ z, g.value? w = some z ∧ v ∈ z.phiUsers

/-- **The operand of a phi at a place goes with the predecessor at that place**, so as many operands
come in from a block as there are edges from it. -/
structure Paired (g : Graph) : Prop where
  places : ∀ b x v y p, g.block? b = some x → v ∈ x.phis → g.value? v = some y →
    y.phi? = some p → List.Forall₂ (g.FlowsIn b v) x.predecessors p.operands
  edges : ∀ b x v y p s z, g.block? b = some x → v ∈ x.phis → g.value? v = some y →
    y.phi? = some p → g.block? s = some z →
    ((x.predecessors.zip p.operands).map (·.1)).count s = z.successors.count b

/-! ### What is missing, by either of its names -/

theorem not_isRemoved_iff (hw : g.HasValue w) : ¬ g.IsRemoved w ↔ (g.valueAt w).live = true := by
  obtain ⟨x, hx⟩ := Option.isSome_iff_exists.1 hw
  rw [valueAt_of_slot? hx]
  simp [IsRemoved, hx]

theorem livePhi?_eq_some_iff :
    (g.valueAt v).livePhi? = some p ↔ ∃ y, g.value? v = some y ∧ y.phi? = some p := by
  rw [livePhi?_eq, Option.bind_eq_some_iff]

theorem phiOperands_of_value? (hy : g.value? v = some y) (hp : y.phi? = some p) :
    (g.valueAt v).phiOperands = p.operands :=
  Value.phiOperands_of_livePhi? (livePhi?_eq_some_iff.2 ⟨y, hy, hp⟩)

theorem mem_operandsOf_iff :
    w ∈ g.operandsOf i ↔ ∃ x, g.instruction? i = some x ∧ w ∈ x.operands := by
  rw [operandsOf]
  cases g.instruction? i <;> simp

theorem mem_phiOperands_iff :
    w ∈ (g.valueAt v).phiOperands ↔ ∃ y p, g.value? v = some y ∧ y.phi? = some p ∧
      w ∈ p.operands := by
  constructor
  · intro hw
    cases hp : (g.valueAt v).livePhi? with
    | none => exact absurd hw (by simp [Value.phiOperands, hp])
    | some p =>
      obtain ⟨y, hy, hyp⟩ := livePhi?_eq_some_iff.1 hp
      exact ⟨y, p, hy, hyp, phiOperands_of_value? hy hyp ▸ hw⟩
  · rintro ⟨y, p, hy, hp, hw⟩
    rw [phiOperands_of_value? hy hp]
    exact hw

theorem InStep.nothingMissing_iff (h : InStep g) : NothingMissing g ↔ Complete g := by
  constructor
  · intro hg
    refine ⟨fun b v hb => ?_, fun i w hw => ?_, fun v w hw => ?_⟩
    · have hv := h.filed.mem_phis.2 hb
      obtain ⟨x, hx⟩ := Option.isSome_iff_exists.1 (hasBlock_of_mem (f := (·.phis)) rfl hv)
      rw [blockAt_of_block? hx] at hv ⊢
      obtain ⟨y, p, hy, hp, hlen⟩ := hg.filled b x v hx hv
      rw [phiOperands_of_value? hy hp]
      exact hlen
    · obtain ⟨x, hi, hx⟩ := mem_operandsOf_iff.1 hw
      rw [← not_isRemoved_iff (h.filed.hasValue_of_mem_operandsOf hw)]
      exact hg.instructions i x w hi hx
    · obtain ⟨y, p, hy, hp, hpw⟩ := mem_phiOperands_iff.1 hw
      rw [← not_isRemoved_iff (h.filed.hasValue_of_mem_phiOperands hw)]
      exact hg.phis v y p w hy hp hpw
  · intro hg
    refine ⟨fun b x v hx hv => ?_, fun v y p w hy hp hpw => ?_, fun i x w hi hx => ?_⟩
    · rw [← blockAt_of_block? hx] at hv ⊢
      have hb := h.filed.mem_phis.1 hv
      obtain ⟨p, hp, -⟩ := Value.phiBlock?_eq_some.1 hb
      obtain ⟨y, hy, hyp⟩ := livePhi?_eq_some_iff.1 hp
      exact ⟨y, p, hy, hyp, phiOperands_of_value? hy hyp ▸ hg.filled b v hb⟩
    · have hw := mem_phiOperands_iff.2 ⟨y, p, hy, hp, hpw⟩
      rw [not_isRemoved_iff (h.filed.hasValue_of_mem_phiOperands hw)]
      exact hg.phiOperands v w hw
    · have hw := mem_operandsOf_iff.2 ⟨x, hi, hx⟩
      rw [not_isRemoved_iff (h.filed.hasValue_of_mem_operandsOf hw)]
      exact hg.operands i w hw

/-! ### What a complete graph lists -/

section Complete

variable (hg : Complete g) (h : InStep g)
include hg h

theorem Complete.readsListed : ReadsListed g where
  phis v y p w hy hp hw := by
    rw [← phiOperands_of_value? hy hp] at hw ⊢
    exact ⟨g.valueAt w, by rw [value?_eq, if_pos (hg.phiOperands v w hw)], h.filed.phiUses v w⟩
  instructions i x w hi hw := by
    rw [← operandsOf_of_instruction? hi] at hw ⊢
    exact ⟨g.valueAt w, by rw [value?_eq, if_pos (hg.operands i w hw)], h.filed.uses i w⟩

theorem Complete.length_operands (hx : g.block? b = some x) (hv : v ∈ x.phis)
    (hy : g.value? v = some y) (hp : y.phi? = some p) :
    p.operands.length = x.predecessors.length := by
  rw [← blockAt_of_block? hx] at hv ⊢
  rw [← phiOperands_of_value? hy hp]
  exact hg.filled b v (h.filed.mem_phis.1 hv)

theorem Complete.paired : Paired g where
  places b x v y p hx hv hy hp := by
    have hlen := hg.length_operands h hx hv hy hp
    refine List.forall₂_iff_zip.2 ⟨hlen.symm, fun {s w} hsw => ?_⟩
    obtain ⟨hs, hw⟩ := List.of_mem_zip hsw
    obtain ⟨source, hfrom⟩ := h.lockStep.edges_live b x hx s (Or.inr hs)
    obtain ⟨z, hz, hcount⟩ := (hg.readsListed h).phis v y p w hy hp hw
    refine ⟨⟨source, hfrom, ?_⟩, z, hz, ?_⟩
    · rw [← List.count_pos_iff, h.lockStep.edge_counts s b source x hfrom hx, List.count_pos_iff]
      exact hs
    · rw [← List.count_pos_iff, hcount, List.count_pos_iff]
      exact hw
  edges b x v y p s z hx hv hy hp hz := by
    rw [List.map_fst_zip (hg.length_operands h hx hv hy hp).ge,
      h.lockStep.edge_counts s b z x hz hx]

end Complete

/-- **The check of a reachable graph is exact**: it finds no fault if and only if nothing is
missing, and then all that is said twice is said alike. -/
theorem verify_ok_iff_nothingMissing (h : Reachable g) :
    (g.verify = .ok () ↔ NothingMissing g) ∧
      (g.verify = .ok () → LockStep g ∧ ReadsListed g ∧ Paired g) := by
  have hstep := h.inStep
  refine ⟨hstep.verify_eq_ok.trans hstep.nothingMissing_iff.symm, fun hok => ?_⟩
  have hg : Complete g := hstep.verify_eq_ok.1 hok
  exact ⟨hstep.lockStep, hg.readsListed hstep, hg.paired hstep⟩

/-- Two edges from one block and the edge of a loop lead to a phi that is given two operands; and a
value that nothing reads is removed. -/
def loopWithoutOperand : Graph :=
  afterAll [.addBlock, .addBlock, .addEdge ⟨0⟩ ⟨1⟩, .addEdge ⟨0⟩ ⟨1⟩, .addEdge ⟨1⟩ ⟨1⟩,
    .addInstruction ⟨0⟩ (.number 1) [] (some (.prim .int)),
    .addInstruction ⟨0⟩ (.number 2) [] (some (.prim .int)), .removeInstruction ⟨1⟩,
    .addPhi ⟨1⟩ (.prim .int), .appendOperand ⟨2⟩ ⟨0⟩, .appendOperand ⟨2⟩ ⟨0⟩] (Graph.empty none)

/-- The phi lacks its third operand, which the check finds.  With itself as that operand it
passes, and the three operands go with the three predecessors. -/
theorem verify_ok_iff_nothingMissing_loop :
    let filled := afterAll [.appendOperand ⟨2⟩ ⟨2⟩] loopWithoutOperand
    Reachable filled ∧ filled.IsRemoved ⟨1⟩ ∧ NothingMissing filled ∧
      ¬ NothingMissing loopWithoutOperand ∧
      List.Forall₂ (filled.FlowsIn ⟨1⟩ ⟨2⟩) [⟨0⟩, ⟨0⟩, ⟨1⟩] [⟨0⟩, ⟨0⟩, ⟨2⟩] := by
  intro filled
  have hlacks : Reachable loopWithoutOperand := Reachable.afterAll (.empty none) _
  have hfilled : Reachable filled := hlacks.afterAll _
  obtain ⟨hexact, hlists⟩ := verify_ok_iff_nothingMissing hfilled
  obtain ⟨-, -, hpaired⟩ := hlists rfl
  refine ⟨hfilled, ⟨_, rfl, rfl⟩, hexact.1 rfl, fun hnone => ?_,
    hpaired.places ⟨1⟩ _ ⟨2⟩ _ _ rfl (by decide) rfl rfl⟩
  have hfault : loopWithoutOperand.verify = .error (.phiOperands ⟨2⟩ 2 ⟨1⟩ 3) := rfl
  rw [(verify_ok_iff_nothingMissing hlacks).1.2 hnone] at hfault
  cases hfault

end Graph
end IrAnalysis
