/-
# What the check of a graph asks for

In a reachable graph the lists are in step, so `Graph.verify` finds nothing wrong with edges
and uses.  What it can still find is a phi that lacks an operand for a predecessor, or an
operand that is no longer live: a graph passes exactly if it is `Complete`.

An edit that does not merge keeps a graph complete.  What it removes nobody reads, and what it
lets others read is live.
-/

import IrAnalysis.Proofs.Reachable

namespace IrAnalysis
namespace Graph

variable {g g' : Graph} {b c id next s t : BlockId} {v w u : ValueId} {i j : InstId} {x : Block}

theorem mem_liveInstructions {x : Instruction} :
    (i, x) ∈ g.liveInstructions ↔ g.instruction? i = some x := by
  simp only [liveInstructions, List.mem_filterMap, Prod.exists, List.mem_zipIdx_iff_getElem?,
    Option.map_eq_some_iff, Prod.mk.injEq, instruction?, Option.join_eq_some_iff]
  constructor
  · rintro ⟨y, k, hy, x', rfl, rfl, rfl⟩
    exact hy
  · intro hx
    exact ⟨some x, i.index, hx, x, rfl, rfl, rfl⟩

/-- A phi has an operand for each predecessor of its block. -/
def Filled (g : Graph) : Prop :=
  ∀ b v, (g.valueAt v).phiBlock? = some b →
    (g.valueAt v).phiOperands.length = (g.blockAt b).predecessors.length

/-- **Nothing is missing**: phis have all their operands, and what is read is live. -/
structure Complete (g : Graph) : Prop where
  filled : Filled g
  operands : ∀ i w, w ∈ g.operandsOf i → (g.valueAt w).live = true
  phiOperands : ∀ v w, w ∈ (g.valueAt v).phiOperands → (g.valueAt w).live = true

/-- An instruction or a phi reads the value. -/
def IsRead (g : Graph) (w : ValueId) : Prop :=
  (∃ j, w ∈ g.operandsOf j) ∨ ∃ u, w ∈ (g.valueAt u).phiOperands

theorem complete_iff : Complete g ↔ Filled g ∧ ∀ w, g.IsRead w → (g.valueAt w).live = true := by
  constructor
  · rintro ⟨hfilled, hops, hphis⟩
    refine ⟨hfilled, ?_⟩
    rintro w (⟨j, hj⟩ | ⟨u, hu⟩)
    · exact hops j w hj
    · exact hphis u w hu
  · rintro ⟨hfilled, hread⟩
    exact ⟨hfilled, fun j w hj => hread w (Or.inl ⟨j, hj⟩), fun u w hu => hread w (Or.inr ⟨u, hu⟩)⟩

/-- What is unused is read nowhere. -/
theorem InStep.not_isRead (h : InStep g) (hw : (g.valueAt w).isUnused = true) : ¬ g.IsRead w := by
  simp only [Value.isUnused, Bool.and_eq_true, List.isEmpty_iff] at hw
  rintro (⟨j, hj⟩ | ⟨u, hu⟩)
  · rw [← h.filed.mem_users, hw.1] at hj
    exact absurd hj List.not_mem_nil
  · rw [← h.filed.mem_phiUsers, hw.2] at hu
    exact absurd hu List.not_mem_nil

/-! ### What the check finds -/

/-- Both ends of an edge list it equally often. -/
theorem InStep.verifySuccessor (h : InStep g) (hb : g.block? b = some x) (hs : s ∈ x.successors) :
    g.verifySuccessor b x s = .ok () := by
  have hb' := blockAt_of_block? hb
  have hlive : g.HasBlock s := by
    refine h.hasBlock_of_leads (b := b) ?_
    rw [Leads, hb']
    exact hs
  obtain ⟨y, hy⟩ := Option.isSome_iff_exists.1 hlive
  have hcount := h.mirrored b s
  rw [hb', blockAt_of_block? hy] at hcount
  simp [Graph.verifySuccessor, checkBlock_of_block? hy, hcount, bind, Except.bind, pure,
    Except.pure]

theorem InStep.verifyPredecessor (h : InStep g) (hb : g.block? b = some x)
    (hs : s ∈ x.predecessors) : g.verifyPredecessor b s = .ok () := by
  have hmem : b ∈ (g.blockAt s).successors := by
    rw [← List.count_pos_iff, h.mirrored s b, blockAt_of_block? hb, List.count_pos_iff]
    exact hs
  obtain ⟨y, hy⟩ := Option.isSome_iff_exists.1 (hasBlock_of_mem (f := (·.successors)) rfl hmem)
  rw [blockAt_of_block? hy] at hmem
  simp [Graph.verifyPredecessor, checkBlock_of_block? hy, hmem, bind, Except.bind, pure,
    Except.pure]

/-- What lists its reader passes the check of the reader exactly if it is live. -/
theorem checkUse_eq_ok {α : Type} [DecidableEq α] {a : α} {uses : Value → List α}
    {err : GraphError} (ha : a ∈ uses (g.valueAt w)) :
    (do if a ∉ uses (← g.checkValue w) then throw err : Except GraphError Unit) = .ok () ↔
      (g.valueAt w).live = true := by
  by_cases hw : (g.valueAt w).live = true
  · simp [checkValue_of_live hw, bind, Except.bind, ha, hw, pure, Except.pure]
  · simp [checkValue_of_not_live hw, bind, Except.bind, hw]

theorem InStep.verifyPhi_eq_ok (h : InStep g) (hb : g.block? b = some x) (hv : v ∈ x.phis) :
    g.verifyPhi b x v = .ok () ↔
      (g.valueAt v).phiOperands.length = x.predecessors.length ∧
        ∀ w ∈ (g.valueAt v).phiOperands, (g.valueAt w).live = true := by
  rw [← blockAt_of_block? hb] at hv
  obtain ⟨p, hp, -⟩ := Value.phiBlock?_eq_some.1 (h.filed.mem_phis.1 hv)
  obtain ⟨hlive, hdef⟩ := Value.livePhi?_eq_some.1 hp
  have hops := Value.phiOperands_of_livePhi? hp
  have hphi : (g.valueAt v).phi? = some p := by rw [Value.phi?, hdef]
  have hreads : (p.operands.forM fun operand => do
      if v ∉ (← g.checkValue operand).phiUsers then throw (GraphError.missingPhiUse operand v)) =
        .ok () ↔ ∀ w ∈ p.operands, (g.valueAt w).live = true := by
    rw [forM_eq_ok]
    exact forall₂_congr fun w hw => checkUse_eq_ok (h.filed.mem_phiUsers.2 (hops ▸ hw))
  rw [hops, ← hreads, verifyPhi, checkValue_of_live hlive]
  by_cases hlen : p.operands.length = x.predecessors.length
  · simp [bind, Except.bind, hphi, hlen, pure, Except.pure]
  · simp [bind, Except.bind, hphi, hlen]

theorem InStep.verifyInstruction_eq_ok (h : InStep g) {x : Instruction}
    (hi : g.instruction? i = some x) :
    g.verifyInstruction i x = .ok () ↔ ∀ w ∈ x.operands, (g.valueAt w).live = true := by
  rw [verifyInstruction, forM_eq_ok]
  exact forall₂_congr fun w hw =>
    checkUse_eq_ok (h.filed.mem_users.2 (operandsOf_of_instruction? hi ▸ hw))

theorem InStep.verifyBlocks_eq_ok (h : InStep g) :
    (∀ b ∈ g.liveBlocks, g.verifyBlock b.1 b.2 = .ok ()) ↔
      ∀ b v, (g.valueAt v).phiBlock? = some b →
        (g.valueAt v).phiOperands.length = (g.blockAt b).predecessors.length ∧
          ∀ w ∈ (g.valueAt v).phiOperands, (g.valueAt w).live = true := by
  constructor
  · intro hall b v hb
    have hv := h.filed.mem_phis.2 hb
    obtain ⟨x, hx⟩ := Option.isSome_iff_exists.1 (hasBlock_of_mem (f := (·.phis)) rfl hv)
    have hone := hall (b, x) (mem_liveBlocks.2 hx)
    rw [blockAt_of_block? hx] at hv ⊢
    simp only [verifyBlock, bind_eq_ok, forM_eq_ok] at hone
    obtain ⟨-, -, hphis⟩ := hone
    exact (h.verifyPhi_eq_ok hx hv).1 (hphis v hv)
  · rintro hall ⟨b, x⟩ hbx
    have hx := mem_liveBlocks.1 hbx
    simp only [verifyBlock, bind_eq_ok, forM_eq_ok]
    refine ⟨fun s hs => h.verifySuccessor hx hs, fun s hs => h.verifyPredecessor hx hs,
      fun v hv => (h.verifyPhi_eq_ok hx hv).2 ?_⟩
    rw [← blockAt_of_block? hx] at hv ⊢
    exact hall b v (h.filed.mem_phis.1 hv)

theorem InStep.verifyInstructions_eq_ok (h : InStep g) :
    (∀ i ∈ g.liveInstructions, g.verifyInstruction i.1 i.2 = .ok ()) ↔
      ∀ i w, w ∈ g.operandsOf i → (g.valueAt w).live = true := by
  constructor
  · intro hall i w hw
    cases hi : g.instruction? i with
    | none => exact absurd hw (by simp [operandsOf, hi])
    | some x =>
      rw [operandsOf_of_instruction? hi] at hw
      exact (h.verifyInstruction_eq_ok hi).1 (hall (i, x) (mem_liveInstructions.2 hi)) w hw
  · rintro hall ⟨i, x⟩ hix
    have hi := mem_liveInstructions.1 hix
    exact (h.verifyInstruction_eq_ok hi).2 fun w hw =>
      hall i w (operandsOf_of_instruction? hi ▸ hw)

/-- **A graph whose lists are in step passes its check exactly if nothing is missing.** -/
theorem InStep.verify_eq_ok (h : InStep g) : g.verify = .ok () ↔ Complete g := by
  rw [verify, bind_eq_ok]
  simp only [forM_eq_ok]
  rw [h.verifyBlocks_eq_ok, h.verifyInstructions_eq_ok]
  constructor
  · rintro ⟨hphis, hreads⟩
    refine ⟨fun b v hb => (hphis b v hb).1, hreads, fun v w hw => ?_⟩
    cases hb : (g.valueAt v).phiBlock? with
    | none =>
      rw [Value.phiOperands_of_phiBlock?_none hb] at hw
      exact absurd hw List.not_mem_nil
    | some b => exact (hphis b v hb).2 w hw
  · intro hg
    exact ⟨fun b v hb => ⟨hg.filled b v hb, hg.phiOperands v⟩, hg.operands⟩

/-! ### Edits other than a merge -/

section Edits

variable {old new : ValueId} {operation : Operation} {operands : List ValueId}

/-- What is read once one value is read for another. -/
theorem live_of_mem_swapped {l : List ValueId} (hl : ∀ u ∈ l, (g.valueAt u).live = true)
    (hnew : (g.valueAt new).live = true) (hw : w ∈ swapped old new l) :
    (g.valueAt w).live = true := by
  obtain ⟨u, hu, rfl⟩ := List.mem_map.1 hw
  split_ifs
  · exact hnew
  · exact hl u hu

theorem Complete.substitute (hg : Complete g) (h : InStep g)
    (hnew : (g.valueAt new).live = true) : Complete (g.substitute old new) := by
  have hhas := hasValue_of_live hnew
  have hlive : ∀ u, ((g.substitute old new).valueAt u).live = (g.valueAt u).live := fun _ =>
    view_substitute (·.live) (fun _ _ _ => rfl) (fun _ _ => Value.live_mapOperands) hhas
  refine ⟨fun b v hb => ?_, fun i w hw => ?_, fun v w hw => ?_⟩
  · rw [phiBlock?_substitute hhas] at hb
    rw [phiOperands_substitute h.filed hhas, swapped, List.length_map, blockAt_substitute]
    exact hg.filled b v hb
  · rw [operandsOf_substitute h.filed] at hw
    rw [hlive]
    exact live_of_mem_swapped (hg.operands i) hnew hw
  · rw [phiOperands_substitute h.filed hhas] at hw
    rw [hlive]
    exact live_of_mem_swapped (hg.phiOperands v) hnew hw

theorem Complete.rewriteInstruction (hg : Complete g) {x : Instruction}
    (hi : g.instruction? i = some x) (hops : ∀ v ∈ operands, (g.valueAt v).live = true) :
    Complete (g.rewriteInstruction i operation operands) := by
  have hvalue : ∀ w, (g.rewriteInstruction i operation operands).valueAt w = _ := fun w =>
    valueAt_rewriteInstruction fun v hv => hasValue_of_live (hops v hv)
  refine ⟨fun b v hb => ?_, fun j w hw => ?_, fun v w hw => ?_⟩
  · rw [hvalue] at hb ⊢
    rw [blockAt_rewriteInstruction]
    exact hg.filled b v hb
  · rw [hvalue]
    rw [operandsOf, instruction?_rewriteInstruction] at hw
    by_cases hj : j = i
    · rw [if_pos hj, hj, hi] at hw
      exact hops w hw
    · rw [if_neg hj] at hw
      exact hg.operands j w hw
  · rw [hvalue] at hw ⊢
    exact hg.phiOperands v w hw

theorem Complete.eraseInstruction (hg : Complete g) (h : InStep g) {x : Instruction}
    (hi : g.instruction? i = some x)
    (hunused : ∀ v, x.output = some v → (g.valueAt v).isUnused = true) :
    Complete (g.eraseInstruction i) := by
  have hvalue : ∀ w, (g.eraseInstruction i).valueAt w = _ := fun w => valueAt_eraseInstruction hi
  have hread : ∀ w, (g.eraseInstruction i).IsRead w → g.IsRead w := by
    rintro w (⟨j, hj⟩ | ⟨u, hu⟩)
    · rw [operandsOf, instruction?_eraseInstruction hi] at hj
      split_ifs at hj
      · exact absurd hj List.not_mem_nil
      · exact Or.inl ⟨j, hj⟩
    · rw [hvalue, Value.phiOperands_dieIf] at hu
      split_ifs at hu
      · exact absurd hu List.not_mem_nil
      · exact Or.inr ⟨u, hu⟩
  rw [complete_iff] at hg ⊢
  refine ⟨fun b v hb => ?_, fun w hw => ?_⟩
  · rw [hvalue, Value.phiBlock?_dieIf] at hb
    rw [hvalue, Value.phiOperands_dieIf, blockAt_eraseInstruction hi]
    split_ifs at hb ⊢ <;> exact hg.1 b v hb
  · have hout : x.output ≠ some w := fun he => h.not_isRead (hunused w he) (hread w hw)
    rw [hvalue, Value.live_dieIf, Value.live_mapUsers, hg.2 w (hread w hw)]
    simp [hout]

/-- Values stay as they are, and so do the numbers of predecessors of blocks with phis. -/
theorem Complete.reshape (hg : Complete g) (hvalue : ∀ w, g'.valueAt w = g.valueAt w)
    (hops : ∀ j, ∀ w ∈ g'.operandsOf j, w ∈ g.operandsOf j)
    (hpreds : ∀ b v, (g.valueAt v).phiBlock? = some b →
      (g'.blockAt b).predecessors.length = (g.blockAt b).predecessors.length) : Complete g' := by
  refine ⟨fun b v hb => ?_, fun j w hw => ?_, fun v w hw => ?_⟩
  · rw [hvalue] at hb ⊢
    rw [hpreds b v hb]
    exact hg.filled b v hb
  · rw [hvalue]
    exact hg.operands j w (hops j w hw)
  · rw [hvalue] at hw ⊢
    exact hg.phiOperands v w hw

/-- The jump that a split puts defines nothing and reads nothing. -/
theorem valueAt_splitAt (hid : g.block? id = some x) (index : Nat) :
    (g.splitAt id x index).valueAt w = g.valueAt w := by
  have hnone : ∀ v ∈ ([] : List ValueId), (g.cutAt id index).HasValue v := by simp
  rw [splitAt_eq hid, valueAt_pushInstruction hnone, valueAt_cutAt]
  split_ifs with hw
  · have hcut : (g.cutAt id index).valueAt w = g.valueAt w := valueAt_cutAt
    rw [← hcut, hw, valueAt_of_not_hasValue not_hasValue_nextValue]
    rfl
  · simp

/-- The new block is the predecessor that the old one was. -/
theorem InStep.predecessors_splitAt (h : InStep g) (hid : g.block? id = some x) (index : Nat)
    (hb : b ≠ g.nextBlock) : ((g.splitAt id x index).blockAt b).predecessors =
      (g.blockAt b).predecessors.map fun p => if p = id then g.nextBlock else p := by
  have hlive := hasBlock_of_block? hid
  have hnone : ∀ v ∈ ([] : List ValueId), (g.cutAt id index).HasValue v := by simp
  rw [splitAt_eq hid, blockAt_pushInstruction (hasBlock_cutAt.2 (Or.inr hlive)) hnone,
    blockAt_cutAt h hlive, if_neg hb]

/-- No phi stands in a block that is still to be made. -/
theorem InStep.ne_nextBlock (h : InStep g) (hv : (g.valueAt v).phiBlock? = some b) :
    b ≠ g.nextBlock := by
  rintro rfl
  exact not_hasBlock_nextBlock (hasBlock_of_mem (f := (·.phis)) rfl (h.filed.mem_phis.2 hv))

theorem Complete.splitAt (hg : Complete g) (h : InStep g) (hid : g.block? id = some x)
    (index : Nat) : Complete (g.splitAt id x index) := by
  have hnone : ∀ v ∈ ([] : List ValueId), (g.cutAt id index).HasValue v := by simp
  refine hg.reshape (fun w => valueAt_splitAt hid index) (fun j w hw => ?_) fun b v hb => ?_
  · rw [splitAt_eq hid, operandsOf, instruction?_pushInstruction hnone] at hw
    split_ifs at hw with hj
    · exact absurd hw List.not_mem_nil
    · rw [instruction?_cutAt] at hw
      rw [operandsOf]
      split_ifs at hw
      · cases hi : g.instruction? j <;> simp_all
      · exact hw
  · rw [h.predecessors_splitAt hid index (h.ne_nextBlock hb), List.length_map]

theorem Complete.unlink? (hg : Complete g) (h : InStep g) (hcut : g.unlink? s t = some g') :
    Complete g' := by
  obtain ⟨index, place, hcut, -, hblock, hops, hlive, hinst⟩ := h.unlink?_reads hcut
  have hindex := (List.getElem?_eq_some_iff.1 hcut.source).1
  refine ⟨fun b v hb => ?_, fun j w hw => ?_, fun v w hw => ?_⟩
  · rw [hblock] at hb
    have harity := hg.filled b v hb
    rw [hops, hcut.blockAt]
    by_cases hbt : b = t
    · -- The operand goes from the place that the source has among the predecessors.
      subst hbt
      rw [if_pos (h.filed.mem_phis.2 hb), if_pos rfl, List.length_eraseIdx, List.length_eraseIdx,
        harity]
    · have hnot : v ∉ (g.blockAt t).phis := fun hmem =>
        hbt (Option.some.inj (hb.symm.trans (h.filed.mem_phis.1 hmem)))
      rw [if_neg hnot, if_neg hbt]
      exact harity
  · rw [operandsOf, hinst] at hw
    rw [hlive]
    exact hg.operands j w hw
  · rw [hops] at hw
    rw [hlive]
    split_ifs at hw
    · exact hg.phiOperands v w (List.mem_of_mem_eraseIdx hw)
    · exact hg.phiOperands v w hw

end Edits
end Graph
end IrAnalysis
