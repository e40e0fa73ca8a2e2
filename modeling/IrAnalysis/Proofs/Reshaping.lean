/-
# Reshaping a graph keeps its lists in step

The changes that remove instructions, phis, edges and blocks, and those that move
instructions from one block to another.  Where a change takes several lists from one
state to another, what it does to each is said first, as the block and the value
that it leaves at every number, and that the lists are in step follows from there.

A block goes together with what lies in it, and while it goes the lists of the graph
do not say what is live: the block is dropped first.  `Filed` is then kept for the
lists as they were, less what is gone (`Filed.discardInstruction`, `Filed.discardPhi`).
-/

import IrAnalysis.Proofs.InStep

namespace IrAnalysis

namespace Graph

variable {lists lists' : BlockId → Block} {g : Graph} {b c id : BlockId} {v w phi : ValueId}
  {i j : InstId}

/-! ### Removing instructions and phis -/

/-- An instruction goes, with what it defines and from the list of its block. -/
theorem Filed.discardInstruction (h : Filed lists g) {x : Instruction}
    (hi : g.instruction? i = some x) (hphis : ∀ c, (lists' c).phis = (lists c).phis)
    (hpreds : ∀ c, (lists' c).predecessors = (lists c).predecessors)
    (hinsts : ∀ c j, (lists' c).instructions.count j =
      if j = i then 0 else (lists c).instructions.count j) :
    Filed lists' (g.discardInstruction i) := by
  have hout : ∀ w, x.output = some w → (g.valueAt w).definer? = some i := by
    intro w hw
    rw [← h.outputs, hi]
    exact hw
  -- What the instruction defines is no phi, so no phi dies with it.
  have hphiBlock : ∀ w, ((g.discardInstruction i).valueAt w).phiBlock? =
      (g.valueAt w).phiBlock? := by
    intro w
    rw [valueAt_discardInstruction hi, Value.phiBlock?_dieIf, Value.phiBlock?_mapUsers]
    by_cases hw : x.output = some w
    · simp [hw, Value.phiBlock?_of_definer? (hout w hw)]
    · simp [hw]
  have hphiOps : ∀ w, ((g.discardInstruction i).valueAt w).phiOperands =
      (g.valueAt w).phiOperands := by
    intro w
    rw [valueAt_discardInstruction hi, Value.phiOperands_dieIf, Value.phiOperands_mapUsers]
    by_cases hw : x.output = some w
    · have hnone := Value.phiBlock?_of_definer? (hout w hw)
      simp [hw, Value.phiOperands_of_phiBlock?_none hnone]
    · simp [hw]
  refine ⟨?_, ?_, ?_, ?_, ?_, ?_⟩
  · intro c w
    rw [hphis, hphiBlock]
    exact h.phis c w
  · intro c w hw
    rw [hphiBlock] at hw
    rw [hpreds, hphiOps]
    exact h.arity c w hw
  · intro c j
    rw [hinsts, instruction?_discardInstruction, h.instructions c j]
    by_cases hj : j = i <;> simp [hj]
  · intro j w
    rw [instruction?_discardInstruction, valueAt_discardInstruction hi, Value.definer?_dieIf,
      Value.definer?_mapUsers]
    by_cases hj : j = i
    · by_cases hw : x.output = some w
      · simp [hj, hw]
      · have hno : (g.valueAt w).definer? ≠ some i := by
          rw [Ne, ← h.outputs, hi]
          exact hw
        simp [hj, hw, hno]
    · by_cases hw : x.output = some w
      · have hno : (g.instruction? j).bind (·.output) ≠ some w := by
          rw [Ne, h.outputs, hout w hw]
          simpa using Ne.symm hj
        simp [hj, hw, hno]
      · simpa [hj, hw] using h.outputs j w
  · intro j w
    rw [valueAt_discardInstruction hi, Value.users_dieIf, Value.users_mapUsers,
      count_iterate_takeOut, h.uses j w, operandsOf, operandsOf, instruction?_discardInstruction]
    by_cases hj : j = i <;> simp [hj, hi]
  · intro u w
    rw [hphiOps, valueAt_discardInstruction hi]
    exact h.phiUses u w

theorem blockAt_eraseInstruction {x : Instruction} (hi : g.instruction? i = some x) :
    (g.eraseInstruction i).blockAt c =
      if c = x.block then
        { phis := (g.blockAt c).phis
          instructions := (g.blockAt c).instructions.filter (· ≠ i)
          predecessors := (g.blockAt c).predecessors
          successors := (g.blockAt c).successors }
      else g.blockAt c := by
  simp only [eraseInstruction, hi]
  rw [blockAt_congr blocks_discardInstruction, blockAt_modifyBlock (Or.inl rfl)]

theorem instruction?_eraseInstruction {x : Instruction} (hi : g.instruction? i = some x) :
    (g.eraseInstruction i).instruction? j = if j = i then none else g.instruction? j := by
  simp only [eraseInstruction, hi]
  exact instruction?_discardInstruction

theorem valueAt_eraseInstruction {x : Instruction} (hi : g.instruction? i = some x) :
    (g.eraseInstruction i).valueAt w =
      ((g.valueAt w).mapUsers (takeOut i)^[x.operands.count w]).dieIf (x.output = some w) := by
  simp only [eraseInstruction, hi]
  exact valueAt_discardInstruction hi

theorem InStep.eraseInstruction (h : InStep g) {x : Instruction}
    (hi : g.instruction? i = some x) : InStep (g.eraseInstruction i) where
  filed := by
    have heq : g.eraseInstruction i = (g.modifyBlock x.block fun b =>
        { b with instructions := b.instructions.filter (· ≠ i) }).discardInstruction i := by
      simp only [Graph.eraseInstruction, hi]
    have hfiled : Filed g.blockAt (g.modifyBlock x.block fun b =>
        { b with instructions := b.instructions.filter (· ≠ i) }) :=
      h.filed.transfer (fun _ => rfl) (fun _ => rfl) (fun _ _ => rfl) (fun _ _ => rfl)
        fun _ _ _ => Nat.le_refl _
    conv => arg 2; rw [heq]
    refine hfiled.discardInstruction hi ?_ ?_ ?_
    · intro c
      rw [blockAt_eraseInstruction hi]
      split_ifs <;> rfl
    · intro c
      rw [blockAt_eraseInstruction hi]
      split_ifs <;> rfl
    · intro c j
      rw [blockAt_eraseInstruction hi]
      by_cases hc : c = x.block
      · rw [if_pos hc]
        exact count_filter_ne
      · rw [if_neg hc]
        by_cases hj : j = i
        · rw [if_pos hj, h.filed.instructions c j, hj, hi]
          simp [Ne.symm hc]
        · rw [if_neg hj]
  mirrored s t := by
    have hs := blockAt_eraseInstruction (c := s) hi
    have ht := blockAt_eraseInstruction (c := t) hi
    rw [hs, ht]
    split_ifs <;> exact h.mirrored s t

/-- A phi goes, with what it reads and from the list of its block. -/
theorem Filed.discardPhi (h : Filed lists g) {p : Phi} (hv : (g.valueAt v).livePhi? = some p)
    (hinsts : ∀ c, (lists' c).instructions = (lists c).instructions)
    (hpreds : ∀ c, (lists' c).predecessors = (lists c).predecessors)
    (hphis : ∀ c w, (lists' c).phis.count w = if w = v then 0 else (lists c).phis.count w) :
    Filed lists' (g.discardPhi v) := by
  have hphiBlock : ∀ w, ((g.discardPhi v).valueAt w).phiBlock? =
      if w = v then none else (g.valueAt w).phiBlock? := by
    intro w
    rw [valueAt_discardPhi hv]
    by_cases hw : w = v <;> simp [hw]
  have hphiOps : ∀ w, ((g.discardPhi v).valueAt w).phiOperands =
      if w = v then [] else (g.valueAt w).phiOperands := by
    intro w
    rw [valueAt_discardPhi hv]
    by_cases hw : w = v <;> simp [hw]
  have hdefiner : ∀ w, ((g.discardPhi v).valueAt w).definer? = (g.valueAt w).definer? := by
    intro w
    rw [valueAt_discardPhi hv]
    by_cases hw : w = v
    · simp [hw, Value.definer?_of_livePhi? hv]
    · simp [hw]
  refine ⟨?_, ?_, ?_, ?_, ?_, ?_⟩
  · intro c w
    rw [hphis, hphiBlock, h.phis c w]
    by_cases hw : w = v <;> simp [hw]
  · intro c w hw
    rw [hphiBlock] at hw
    rw [hphiOps, hpreds]
    by_cases hwv : w = v
    · simp [hwv]
    · rw [if_neg hwv] at hw ⊢
      exact h.arity c w hw
  · intro c j
    rw [hinsts, instruction?_congr instructions_discardPhi]
    exact h.instructions c j
  · intro j w
    rw [hdefiner, instruction?_congr instructions_discardPhi]
    exact h.outputs j w
  · intro j w
    have husers : ((g.discardPhi v).valueAt w).users = (g.valueAt w).users := by
      rw [valueAt_discardPhi hv]
      by_cases hw : w = v <;> simp [hw]
    rw [husers, operandsOf, instruction?_congr instructions_discardPhi]
    exact h.uses j w
  · intro u w
    have hphiUsers : ((g.discardPhi v).valueAt w).phiUsers =
        (takeOut v)^[p.operands.count w] (g.valueAt w).phiUsers := by
      rw [valueAt_discardPhi hv]
      by_cases hw : w = v <;> simp [hw]
    rw [hphiUsers, hphiOps, count_iterate_takeOut, h.phiUses u w]
    by_cases hu : u = v
    · simp [hu, Value.phiOperands_of_livePhi? hv]
    · simp [hu]

theorem InStep.discardPhi (h : InStep g) {p : Phi} (hv : (g.valueAt v).livePhi? = some p) :
    InStep (g.discardPhi v) where
  filed := by
    refine h.filed.discardPhi hv ?_ ?_ ?_
    · intro c
      rw [blockAt_discardPhi hv]
      split_ifs <;> rfl
    · intro c
      rw [blockAt_discardPhi hv]
      split_ifs <;> rfl
    · intro c w
      rw [blockAt_discardPhi hv]
      by_cases hc : c = p.block
      · rw [if_pos hc]
        exact count_filter_ne
      · rw [if_neg hc]
        by_cases hw : w = v
        · have hb : (g.valueAt v).phiBlock? = some p.block := by simp [Value.phiBlock?, hv]
          rw [if_pos hw, h.filed.phis c w, hw, hb]
          simp [Ne.symm hc]
        · rw [if_neg hw]
  mirrored s t := by
    rw [blockAt_discardPhi hv, blockAt_discardPhi hv]
    split_ifs <;> exact h.mirrored s t

/-! ### Splitting and joining blocks -/

/-- A block that is not live has nothing listed and is listed nowhere. -/
theorem InStep.unlisted (h : InStep g) (hb : ¬ g.HasBlock b) (c : BlockId) :
    (g.blockAt c).successors.count b = 0 ∧ (g.blockAt c).predecessors.count b = 0 := by
  have hempty := blockAt_of_not_hasBlock hb
  constructor
  · rw [h.mirrored c b, hempty]
    rfl
  · rw [← h.mirrored b c, hempty]
    rfl

/-- Where a block is no predecessor there is nothing to rename. -/
theorem InStep.predecessors_rename (h : InStep g) (old new c : BlockId) :
    (if c ∈ (g.blockAt old).successors then
      (g.blockAt c).predecessors.map fun p => if p = old then new else p
    else (g.blockAt c).predecessors) =
      (g.blockAt c).predecessors.map fun p => if p = old then new else p := by
  split_ifs with hsucc
  · rfl
  · have hpred : old ∉ (g.blockAt c).predecessors := by
      rw [← List.count_eq_zero, ← h.mirrored old c]
      exact List.count_eq_zero.2 hsucc
    refine ((List.map_congr_left fun p hp => ?_).trans (List.map_id _)).symm
    have hne : p ≠ old := fun he => hpred (he ▸ hp)
    exact if_neg hne

/-- **The instructions of a list move to another block.** -/
theorem Filed.move (h : Filed lists g) {g' : Graph} {l : List InstId}
    (hv : ∀ v, g'.valueAt v = g.valueAt v)
    (hi : ∀ j, g'.instruction? j = if j ∈ l then
      (g.instruction? j).map fun x => { x with block := b } else g.instruction? j)
    (hl : ∀ j ∈ l, (g.instruction? j).isSome)
    (hphis : ∀ c v, (lists' c).phis.count v = (lists c).phis.count v)
    (hinsts : ∀ c j, (lists' c).instructions.count j =
      if j ∈ l then if c = b then 1 else 0 else (lists c).instructions.count j)
    (hpreds : ∀ c v, v ∈ (lists c).phis →
      (lists c).predecessors.length ≤ (lists' c).predecessors.length) : Filed lists' g' where
  phis c v := by rw [hphis, hv, h.phis]
  arity c v hb := by
    rw [hv] at hb ⊢
    exact Nat.le_trans (h.arity c v hb) (hpreds c v (h.mem_phis.2 hb))
  instructions c j := by
    rw [hinsts, hi]
    by_cases hj : j ∈ l
    · obtain ⟨x, hx⟩ := Option.isSome_iff_exists.1 (hl j hj)
      rw [if_pos hj, if_pos hj, hx]
      simp only [Option.map_some, Option.some.injEq, eq_comm (a := b)]
    · rw [if_neg hj, if_neg hj]
      exact h.instructions c j
  outputs j w := by
    rw [hv, hi, ← h.outputs j w]
    split_ifs
    · cases g.instruction? j <;> rfl
    · rfl
  uses j w := by
    rw [hv, operandsOf, hi, h.uses j w, operandsOf]
    split_ifs
    · cases g.instruction? j <;> rfl
    · rfl
  phiUses u w := by
    rw [hv, hv]
    exact h.phiUses u w

/-- The graph that a split leaves before it puts the jump: `fresh` has the tail of `id`. -/
def cutAt (g : Graph) (id : BlockId) (index : Nat) : Graph :=
  let shortened := (g.pushBlock .empty).modifyBlock id fun b =>
    { b with instructions := b.instructions.take index, successors := [g.nextBlock] }
  let tail := (g.blockAt id).instructions.drop index
  (renamePredecessor id g.nextBlock (assignBlock g.nextBlock shortened tail)
    (g.blockAt id).successors).modifyBlock g.nextBlock fun _ =>
      ⟨[], tail, [id], (g.blockAt id).successors⟩

theorem splitAt_eq {x : Block} (hid : g.block? id = some x) (index : Nat) :
    g.splitAt id x index = (g.cutAt id index).pushInstruction id .goto [] none := by
  rw [cutAt, blockAt_of_block? hid]
  rfl

theorem hasBlock_cutAt {index : Nat} :
    (g.cutAt id index).HasBlock c ↔ c = g.nextBlock ∨ g.HasBlock c := by
  unfold cutAt
  rw [hasBlock_modifyBlock, hasBlock_renamePredecessor, hasBlock_congr blocks_assignBlock,
    hasBlock_modifyBlock, hasBlock_pushBlock]

@[simp] theorem valueAt_cutAt {index : Nat} : (g.cutAt id index).valueAt w = g.valueAt w := by
  unfold cutAt
  rw [valueAt_modifyBlock, valueAt_congr values_renamePredecessor, valueAt_congr values_assignBlock]
  rfl

theorem instruction?_cutAt {index : Nat} :
    (g.cutAt id index).instruction? j =
      if j ∈ (g.blockAt id).instructions.drop index then
        (g.instruction? j).map fun x => { x with block := g.nextBlock }
      else g.instruction? j := by
  unfold cutAt
  rw [instruction?_modifyBlock, instruction?_congr instructions_renamePredecessor,
    instruction?_assignBlock]
  rfl

theorem blockAt_cutAt (h : InStep g) (hid : g.HasBlock id) {index : Nat} :
    (g.cutAt id index).blockAt c =
      if c = g.nextBlock then
        ⟨[], (g.blockAt id).instructions.drop index, [id], (g.blockAt id).successors⟩
      else
        { phis := (g.blockAt c).phis
          instructions := if c = id then (g.blockAt id).instructions.take index
            else (g.blockAt c).instructions
          predecessors := (g.blockAt c).predecessors.map fun p =>
            if p = id then g.nextBlock else p
          successors := if c = id then [g.nextBlock] else (g.blockAt c).successors } := by
  have hfresh : (renamePredecessor id g.nextBlock (assignBlock g.nextBlock
      ((g.pushBlock .empty).modifyBlock id fun b =>
        { b with instructions := b.instructions.take index, successors := [g.nextBlock] })
      ((g.blockAt id).instructions.drop index)) (g.blockAt id).successors).HasBlock
        g.nextBlock := by
    rw [hasBlock_renamePredecessor, hasBlock_congr blocks_assignBlock, hasBlock_modifyBlock,
      hasBlock_pushBlock]
    exact Or.inl rfl
  have hgrown : (g.pushBlock .empty).HasBlock id := hasBlock_pushBlock.2 (Or.inr hid)
  unfold cutAt
  rw [blockAt_modifyBlock (Or.inr hfresh), blockAt_renamePredecessor,
    blockAt_congr blocks_assignBlock, blockAt_modifyBlock (Or.inr hgrown), blockAt_pushBlock_empty]
  by_cases hc : c = g.nextBlock
  · rw [if_pos hc, if_pos hc]
  · rw [if_neg hc, if_neg hc]
    rw [← h.predecessors_rename id g.nextBlock c]
    by_cases hcid : c = id
    · simp only [hcid, if_true]
      split_ifs <;> rfl
    · simp only [if_neg hcid]
      split_ifs <;> rfl

theorem InStep.cutAt (h : InStep g) (hid : g.HasBlock id) {index : Nat} :
    InStep (g.cutAt id index) where
  filed := by
    have hne : id ≠ g.nextBlock := fun he => not_hasBlock_nextBlock (he ▸ hid)
    have hnone := blockAt_of_not_hasBlock (g := g) not_hasBlock_nextBlock
    have htail : ∀ j ∈ (g.blockAt id).instructions.drop index,
        (g.instruction? j).map (·.block) = some id := fun j hj =>
      h.filed.mem_instructions.1 (List.mem_of_mem_drop hj)
    refine h.filed.move (fun _ => valueAt_cutAt) (fun _ => instruction?_cutAt) ?_ ?_ ?_ ?_
    · intro j hj
      obtain ⟨x, hx, -⟩ := Option.map_eq_some_iff.1 (htail j hj)
      exact Option.isSome_iff_exists.2 ⟨x, hx⟩
    · intro c w
      rw [blockAt_cutAt h hid]
      by_cases hc : c = g.nextBlock
      · rw [if_pos hc, hc, hnone]
        rfl
      · rw [if_neg hc]
    · intro c j
      have hsplit : ((g.blockAt id).instructions.take index).count j +
          ((g.blockAt id).instructions.drop index).count j =
            (g.blockAt id).instructions.count j := by
        rw [← List.count_append, List.take_append_drop]
      have hc := h.filed.instructions c j
      have hown := h.filed.instructions id j
      rw [blockAt_cutAt h hid]
      by_cases hj : j ∈ (g.blockAt id).instructions.drop index
      · have hpos := List.count_pos_iff.2 hj
        rw [htail j hj, if_pos rfl] at hown
        rw [htail j hj] at hc
        rw [if_pos hj]
        by_cases hcn : c = g.nextBlock
        · simp only [if_pos hcn]
          omega
        · simp only [if_neg hcn]
          by_cases hci : c = id
          · rw [if_pos hci]
            omega
          · rw [if_neg hci, hc, if_neg fun he => hci (Option.some.inj he).symm]
      · have hzero := List.count_eq_zero.2 hj
        rw [if_neg hj]
        by_cases hcn : c = g.nextBlock
        · rw [if_pos hcn, hcn, hnone]
          exact hzero
        · rw [if_neg hcn]
          by_cases hci : c = id
          · simp only [if_pos hci]
            rw [hci]
            omega
          · simp only [if_neg hci]
    · intro c w hw
      rw [blockAt_cutAt h hid]
      by_cases hc : c = g.nextBlock
      · rw [hc, hnone] at hw
        exact absurd hw List.not_mem_nil
      · rw [if_neg hc, List.length_map]
  mirrored s t := by
    have hne : id ≠ g.nextBlock := fun he => not_hasBlock_nextBlock (he ▸ hid)
    have hfresh := h.unlisted not_hasBlock_nextBlock
    have hst := h.mirrored s t
    have hidt := h.mirrored id t
    have hs : (g.blockAt s).successors.count g.nextBlock = 0 := (hfresh s).1
    have hid' : (g.blockAt id).successors.count g.nextBlock = 0 := (hfresh id).1
    have ht : (g.blockAt t).predecessors.count g.nextBlock = 0 := (hfresh t).2
    rw [blockAt_cutAt h hid, blockAt_cutAt h hid]
    by_cases htn : t = g.nextBlock
    · rw [if_pos htn]
      by_cases hsn : s = g.nextBlock
      · rw [if_pos hsn, htn, hsn, count_one, if_neg hne.symm]
        exact hid'
      · rw [if_neg hsn, htn, count_one]
        by_cases hsi : s = id
        · simp [hsi]
        · simpa [hsi] using hs
    · rw [if_neg htn]
      by_cases hsn : s = g.nextBlock
      · rw [if_pos hsn, count_map_rename hne, if_pos hsn, ht, Nat.zero_add]
        exact hidt
      · rw [if_neg hsn, count_map_rename hne, if_neg hsn]
        by_cases hsi : s = id
        · simp [hsi, htn, count_one]
        · simpa [hsi] using hst

theorem InStep.splitAt (h : InStep g) {x : Block} (hid : g.block? id = some x) (index : Nat) :
    InStep (g.splitAt id x index) := by
  have hlive := hasBlock_of_block? hid
  rw [splitAt_eq hid]
  exact (h.cutAt hlive).pushInstruction (hasBlock_cutAt.2 (Or.inr hlive)) fun v hv => by simp at hv

section Absorb

variable {next : BlockId} {n : Block}

@[simp] theorem valueAt_absorb : (g.absorb id next).valueAt w = g.valueAt w := by
  unfold absorb
  split
  · rfl
  · rw [valueAt_modifyBlock, valueAt_congr values_renamePredecessor,
      valueAt_congr values_assignBlock]
    rfl

theorem instruction?_absorb :
    (g.absorb id next).instruction? j =
      if j ∈ (g.blockAt next).instructions then
        (g.instruction? j).map fun x => { x with block := id }
      else g.instruction? j := by
  unfold absorb
  cases hn : g.block? next with
  | none =>
    have hempty : g.blockAt next = .empty := by rw [blockAt, hn]; rfl
    rw [hempty, if_neg (show ¬ j ∈ Block.empty.instructions from List.not_mem_nil)]
  | some n =>
    show (modifyBlock _ _ _).instruction? j = _
    rw [instruction?_modifyBlock, instruction?_congr instructions_renamePredecessor,
      instruction?_assignBlock, blockAt_of_block? hn]
    rfl

theorem blockAt_absorb (h : InStep g) (hid : g.HasBlock id) (hn : g.block? next = some n)
    (hne : next ≠ id) :
    (g.absorb id next).blockAt c =
      if c = next then .empty
      else
        { phis := (g.blockAt c).phis
          instructions := if c = id then (g.blockAt id).instructions ++ n.instructions
            else (g.blockAt c).instructions
          predecessors := (g.blockAt c).predecessors.map fun p => if p = next then id else p
          successors := if c = id then n.successors else (g.blockAt c).successors } := by
  have hnext := blockAt_of_block? hn
  have hhas : (renamePredecessor next id (assignBlock id (g.dropBlock next) n.instructions)
      n.successors).HasBlock id := by
    rw [hasBlock_renamePredecessor, hasBlock_congr blocks_assignBlock, HasBlock, block?_dropBlock,
      if_neg hne.symm]
    exact hid
  simp only [absorb, hn]
  rw [blockAt_modifyBlock (Or.inr hhas), blockAt_renamePredecessor,
    blockAt_congr blocks_assignBlock, blockAt_dropBlock]
  by_cases hc : c = next
  · have hci : c ≠ id := fun he => hne (hc.symm.trans he)
    rw [if_neg hci, if_pos hc, if_pos hc]
    split_ifs <;> rfl
  · rw [if_neg hc, if_neg hc]
    rw [← hnext, ← h.predecessors_rename next id c]
    by_cases hcid : c = id
    · simp only [hcid, if_true]
      split_ifs <;> rfl
    · simp only [if_neg hcid]
      split_ifs <;> rfl

/-- **A block whose only way on leads to one that has no other way in takes it over.** -/
theorem InStep.absorb (h : InStep g) (hid : g.HasBlock id) (hn : g.block? next = some n)
    (hne : next ≠ id) (hphis : n.phis = []) (hpreds : n.predecessors = [id])
    (hsucc : (g.blockAt id).successors = [next]) : InStep (g.absorb id next) := by
  have hnext := blockAt_of_block? hn
  have hblock : ∀ c, (g.absorb id next).blockAt c = _ := fun c => blockAt_absorb h hid hn hne
  have hown : ∀ j ∈ (g.blockAt next).instructions,
      (g.instruction? j).map (·.block) = some next := fun j hj =>
    h.filed.mem_instructions.1 hj
  refine ⟨h.filed.move (fun _ => valueAt_absorb) (fun _ => instruction?_absorb) ?_ ?_ ?_ ?_, ?_⟩
  · intro j hj
    obtain ⟨x, hx, -⟩ := Option.map_eq_some_iff.1 (hown j hj)
    exact Option.isSome_iff_exists.2 ⟨x, hx⟩
  · intro c w
    rw [hblock]
    by_cases hcn : c = next
    · rw [if_pos hcn, hcn, hnext, hphis]
      rfl
    · rw [if_neg hcn]
  · intro c j
    have hc := h.filed.instructions c j
    have hcnext := h.filed.instructions next j
    rw [hblock, hnext]
    rw [hnext] at hcnext
    by_cases hj : j ∈ n.instructions
    · have hjb := hown j (hnext ▸ hj)
      rw [hjb, if_pos rfl] at hcnext
      rw [hjb] at hc
      rw [if_pos hj]
      by_cases hcn : c = next
      · rw [if_pos hcn, if_neg (hcn ▸ hne)]
        rfl
      · rw [if_neg fun he => hcn (Option.some.inj he).symm] at hc
        rw [if_neg hcn]
        by_cases hci : c = id
        · simp only [if_pos hci]
          rw [List.count_append, ← hci, hc, hcnext]
        · simp only [if_neg hci]
          exact hc
    · have hzero := List.count_eq_zero.2 hj
      rw [if_neg hj]
      by_cases hcn : c = next
      · rw [if_pos hcn, hcn, hnext, hzero]
        rfl
      · rw [if_neg hcn]
        by_cases hci : c = id
        · simp only [if_pos hci]
          rw [List.count_append, hzero, Nat.add_zero, hci]
        · simp only [if_neg hci]
  · intro c w hw
    rw [hblock]
    by_cases hcn : c = next
    · rw [hcn, hnext, hphis] at hw
      exact absurd hw List.not_mem_nil
    · rw [if_neg hcn, List.length_map]
  · intro s t
    have hst := h.mirrored s t
    have hidt := h.mirrored id t
    have hnt := h.mirrored next t
    have hsn := h.mirrored s next
    have hnn := h.mirrored next next
    rw [hnext] at hnt hnn
    rw [hsucc, count_one] at hidt
    rw [hnext, hpreds, count_one] at hsn
    rw [hpreds, count_one] at hnn
    rw [hblock, hblock]
    by_cases htn : t = next
    · rw [if_pos htn]
      by_cases hs : s = next
      · rw [if_pos hs]
        rfl
      · rw [if_neg hs, htn]
        by_cases hsi : s = id
        · simp only [if_pos hsi]
          rw [hnn, if_neg hne]
          rfl
        · simp only [if_neg hsi]
          rw [hsn, if_neg hsi]
          rfl
    · rw [if_neg htn]
      by_cases hs : s = next
      · rw [if_pos hs, count_map_rename hne, if_neg (hs ▸ hne), if_pos hs]
        rfl
      · rw [if_neg hs, count_map_rename hne]
        by_cases hsi : s = id
        · simp only [if_pos hsi]
          rw [← hidt, if_neg htn, ← hnt, Nat.zero_add]
        · simp only [if_neg hsi, if_neg hs]
          exact hst

end Absorb

end Graph
end IrAnalysis
