/-
# A merge takes a split back

A split gives the tail of a block and its successors to a new block, and jumps there.  A merge right
after it drops the jump and takes the tail and the successors over.  Both rename the block among
the predecessors of the successors, wherever its name stands: to the name of the new
block, and back.  Nothing else has that name, as what is not live is listed nowhere
(`InStep.unlisted`), so nothing but what was renamed is renamed back, and the graph is as it was
(`merge_undoes_split`).  What is left of the split is that one number of a block and one of an
instruction are used up (`Graph.usedUp`).
-/

import IrAnalysis.Proofs.Traces

namespace IrAnalysis
namespace Graph

open Edit

variable {g g' : Graph} {b c id next : BlockId} {v w : ValueId} {i j : InstId} {x : Block}
  {index : Nat} {operation : Operation}

/-! ### What is used up -/

/-- The graph when one more number of a block and of an instruction was given out, and what had
them is gone. -/
def usedUp (g : Graph) : Graph :=
  { g with blocks := g.blocks ++ [none], instructions := g.instructions ++ [none] }

/-- **The same is live in both graphs**, with the same lists, under the same numbers. -/
structure SameLive (g g' : Graph) : Prop where
  entry : entry? g' = entry? g
  blocks : g'.liveBlocks = g.liveBlocks
  values : g'.liveValues = g.liveValues
  instructions : g'.liveInstructions = g.liveInstructions

theorem join_getElem?_concat_none {α : Type} (l : List (Option α)) (n : Nat) :
    (l ++ [none])[n]?.join = l[n]?.join := by
  rw [getElem?_concat_eq]
  split_ifs with hn
  · rw [hn, List.getElem?_eq_none (Nat.le_refl _)]
    rfl
  · rfl

theorem block?_usedUp : g.usedUp.block? c = g.block? c := join_getElem?_concat_none _ _

theorem instruction?_usedUp : g.usedUp.instruction? j = g.instruction? j :=
  join_getElem?_concat_none _ _

theorem sameLive_usedUp (g : Graph) : SameLive g g.usedUp where
  entry := by rw [ entry?, block?_usedUp, entry?]
  blocks := by simp [liveBlocks, usedUp, List.zipIdx_append]
  values := rfl
  instructions := by simp [liveInstructions, usedUp, List.zipIdx_append]

/-! ### The jump comes and goes -/

theorem block?_of_hasBlock (hb : g.HasBlock b) : g.block? b = some (g.blockAt b) := by
  obtain ⟨x, hx⟩ := Option.isSome_iff_exists.1 hb
  rw [hx, blockAt_of_block? hx]

theorem block?_congr (hhas : g'.HasBlock c ↔ g.HasBlock c) (hblock : g'.blockAt c = g.blockAt c) :
    g'.block? c = g.block? c := by
  by_cases hc : g.HasBlock c
  · rw [block?_of_hasBlock hc, block?_of_hasBlock (hhas.2 hc), hblock]
  · have hc' := mt hhas.1 hc
    rw [HasBlock, Option.not_isSome_iff_eq_none] at hc hc'
    rw [hc, hc']

/-- An instruction that is put last has a new number, which its block did not list. -/
theorem InStep.filter_nextInstruction (h : InStep g) (b : BlockId) :
    ((g.blockAt b).instructions ++ [g.nextInstruction]).filter (· ≠ g.nextInstruction) =
      (g.blockAt b).instructions := by
  have hnot : g.nextInstruction ∉ (g.blockAt b).instructions := by
    rw [h.filed.mem_instructions, instruction?_nextInstruction]
    exact fun he => absurd he (by simp)
  rw [List.filter_append, List.filter_eq_self.2 fun j hj => ?_]
  · simp
  · have hne : j ≠ g.nextInstruction := fun he => hnot (he ▸ hj)
    exact decide_eq_true hne

theorem block?_pushInstruction_of_none :
    (g.pushInstruction b operation [] none).block? c =
      if c = b then (g.block? c).map fun x =>
        { x with instructions := x.instructions ++ [g.nextInstruction] }
      else g.block? c :=
  block?_modifyBlock

theorem values_pushInstruction_of_none (b : BlockId) (operation : Operation) :
    (g.pushInstruction b operation [] none).values = g.values :=
  List.append_nil _

/-- What reads nothing and defines nothing goes without a trace among the values. -/
theorem eraseInstruction_of_idle (hi : g.instruction? i = some ⟨b, operation, [], none⟩) :
    g.eraseInstruction i =
      { g.modifyBlock b fun x => { x with instructions := x.instructions.filter (· ≠ i) } with
        instructions := g.instructions.set i.index none } := by
  simp only [eraseInstruction, discardInstruction, instruction?_modifyBlock, hi]
  rfl

/-- **An instruction that reads nothing and defines nothing leaves nothing but its number** when it
is put last and removed again. -/
theorem InStep.erase_pushInstruction (h : InStep g) (b : BlockId) (operation : Operation) :
    (g.pushInstruction b operation [] none).eraseInstruction g.nextInstruction =
      { g with instructions := g.instructions ++ [none] } := by
  have hinst : ∀ j, (g.pushInstruction b operation [] none).instruction? j =
      if j = g.nextInstruction then some ⟨b, operation, [], none⟩ else g.instruction? j :=
    fun j => instruction?_pushInstruction (by simp)
  have hi := (hinst g.nextInstruction).trans (if_pos rfl)
  rw [eraseInstruction_of_idle hi]
  refine eq_of_views ?_ (fun c => ?_) (fun w => ?_) fun j => ?_
  · simp [extent, Graph.pushInstruction, modifyBlock]
  · refine block?_modifyBlock.trans ?_
    rw [block?_pushInstruction_of_none]
    split_ifs with hc
    · cases hb : g.block? c with
      | none => exact hb.symm
      | some x =>
        have hx := h.filter_nextInstruction c
        rw [blockAt_of_block? hb] at hx
        simp only [Option.map_some, hx]
        exact hb.symm
    · rfl
  · exact valueAt_congr (values_pushInstruction_of_none b operation) w
  · refine Eq.trans ?_ (join_getElem?_concat_none _ _).symm
    refine instruction?_set.trans ?_
    rw [instruction?_modifyBlock, hinst]
    split_ifs with hj
    · rw [hj]
      exact instruction?_nextInstruction.symm
    · rfl

/-- A jump that defines nothing can be dropped. -/
theorem dropGoto_of_jump {x : Instruction} (hb : g.HasBlock id) (hjump : g.jump? id = some i)
    (hi : g.instruction? i = some x) (hout : x.output = none) :
    (dropGoto id).on g = (.ok (), g.eraseInstruction i) := by
  obtain ⟨hlast, y, hy, hgoto⟩ := jump?_eq_some.1 hjump
  obtain rfl := Option.some.inj (hi.symm.trans hy)
  simp [dropGoto, checkBlock_of_block? (block?_of_hasBlock hb), hlast, hi, hgoto,
    removeInstruction, checkInstruction, hout]

/-! ### The tail goes and comes back -/

theorem extent_renamePredecessor {old new : BlockId} {l : List BlockId} :
    (renamePredecessor old new g l).extent = g.extent :=
  foldl_keeps extent fun _ _ => extent_modifyBlock

theorem extent_assignBlock {l : List InstId} : (assignBlock b g l).extent = g.extent :=
  foldl_keeps extent fun _ _ => extent_modifyInstruction

theorem extent_cutAt : (g.cutAt id index).extent = (g.pushBlock .empty).extent := by
  unfold cutAt
  rw [extent_modifyBlock, extent_renamePredecessor, extent_assignBlock, extent_modifyBlock]

theorem extent_absorb : (g.absorb id next).extent = g.extent := by
  unfold absorb
  split
  · rfl
  · rw [extent_modifyBlock, extent_renamePredecessor, extent_assignBlock]
    simp [extent, dropBlock]

theorem hasBlock_pushInstruction_of_none :
    (g.pushInstruction b operation [] none).HasBlock c ↔ g.HasBlock c :=
  hasBlock_modifyBlock

/-- **The two halves of a block that was split can be merged.** -/
theorem InStep.mergeable_splitAt (h : InStep g) (hid : g.block? id = some x) (index : Nat) :
    ∃ n, Mergeable (g.splitAt id x index) id g.nextBlock n ∧ n.phis = [] := by
  have hlive := hasBlock_of_block? hid
  have hne : id ≠ g.nextBlock := fun he => not_hasBlock_nextBlock (he ▸ hlive)
  have hcut : (g.cutAt id index).HasBlock id := hasBlock_cutAt.2 (Or.inr hlive)
  have hblock : ∀ c, ((g.cutAt id index).pushInstruction id .goto [] none).blockAt c = _ :=
    fun c => blockAt_pushInstruction hcut (by simp)
  rw [splitAt_eq hid]
  refine ⟨_, ⟨hasBlock_pushInstruction_of_none.2 hcut, ?_, hne.symm, block?_of_hasBlock ?_, ?_⟩, ?_⟩
  · rw [hblock, blockAt_cutAt h hlive, if_neg hne]
    exact if_pos rfl
  · exact hasBlock_pushInstruction_of_none.2 (hasBlock_cutAt.2 (Or.inl rfl))
  · rw [hblock, blockAt_cutAt h hlive, if_pos rfl]
  · rw [hblock, blockAt_cutAt h hlive, if_pos rfl]

/-- The jump that a split puts is the last instruction of the block. -/
theorem jump?_splitAt (hid : g.block? id = some x) (index : Nat) :
    (g.splitAt id x index).jump? id = some (g.cutAt id index).nextInstruction ∧
      (g.splitAt id x index).instruction? (g.cutAt id index).nextInstruction =
        some ⟨id, .goto, [], none⟩ := by
  have hcut : (g.cutAt id index).HasBlock id := hasBlock_cutAt.2 (Or.inr (hasBlock_of_block? hid))
  have hi : (g.splitAt id x index).instruction? (g.cutAt id index).nextInstruction =
      some ⟨id, .goto, [], none⟩ := by
    rw [splitAt_eq hid, instruction?_pushInstruction (by simp), if_pos rfl]
    rfl
  refine ⟨jump?_eq_some.2 ⟨?_, _, hi, rfl⟩, hi⟩
  rw [splitAt_eq hid, blockAt_pushInstruction hcut (by simp)]
  simp

/-- The graph that a split and the loss of its jump leave. -/
def jumpless (g : Graph) (id : BlockId) (index : Nat) : Graph :=
  { g.cutAt id index with instructions := (g.cutAt id index).instructions ++ [none] }

theorem InStep.erase_splitAt (h : InStep g) (hid : g.block? id = some x) (index : Nat) :
    (g.splitAt id x index).eraseInstruction (g.cutAt id index).nextInstruction =
      g.jumpless id index := by
  rw [splitAt_eq hid]
  exact (h.cutAt (hasBlock_of_block? hid)).erase_pushInstruction id .goto

theorem InStep.jumpDropped_splitAt (h : InStep g) (hid : g.block? id = some x) (index : Nat) :
    JumpDropped (g.splitAt id x index) id (g.jumpless id index) := by
  obtain ⟨hjump, hi⟩ := jump?_splitAt hid index
  rw [← h.erase_splitAt hid index]
  exact .jump hjump hi (by simp)

theorem instruction?_jumpless :
    (g.jumpless id index).instruction? j = (g.cutAt id index).instruction? j :=
  join_getElem?_concat_none _ _

theorem extent_jumpless : (g.jumpless id index).extent = g.usedUp.extent := by
  have hcut : (g.cutAt id index).extent = (g.pushBlock .empty).extent := extent_cutAt
  simp only [extent, Prod.mk.injEq] at hcut
  simp [extent, jumpless, usedUp, hcut, pushBlock]

/-- **What a block takes over is what was split off.** -/
theorem InStep.blockAt_absorb_jumpless (h : InStep g) (h' : InStep (g.jumpless id index))
    (hid : g.HasBlock id) {n : Block} (hmerge : Mergeable (g.jumpless id index) id g.nextBlock n) :
    ((g.jumpless id index).absorb id g.nextBlock).blockAt c = g.blockAt c := by
  have hcut : ∀ c, (g.jumpless id index).blockAt c = _ := fun c => blockAt_cutAt h hid
  have hn := (blockAt_of_block? hmerge.block?).symm.trans (hcut g.nextBlock)
  rw [if_pos rfl] at hn
  rw [blockAt_absorb h' hmerge.hasBlock hmerge.block? hmerge.ne, hcut, hcut, hn]
  by_cases hc : c = g.nextBlock
  · rw [if_pos hc, hc, blockAt_of_not_hasBlock not_hasBlock_nextBlock]
  · have hfresh : g.nextBlock ∉ (g.blockAt c).predecessors :=
      List.count_eq_zero.1 (h.unlisted not_hasBlock_nextBlock c).2
    rw [if_neg hc, if_neg hc, if_neg hmerge.ne.symm]
    simp only [if_true, map_rename_back hfresh, List.take_append_drop]
    split_ifs with hci
    · rw [hci]
    · rfl

theorem InStep.instruction?_absorb_jumpless (h : InStep g) (hid : g.HasBlock id) :
    ((g.jumpless id index).absorb id g.nextBlock).instruction? j = g.instruction? j := by
  have htail : (g.jumpless id index).blockAt g.nextBlock = _ := blockAt_cutAt h hid
  rw [if_pos rfl] at htail
  rw [instruction?_absorb, instruction?_jumpless, instruction?_cutAt, htail]
  split_ifs with hj
  · obtain ⟨y, hy, hyb⟩ := Option.map_eq_some_iff.1
      (h.filed.mem_instructions.1 (List.mem_of_mem_drop hj))
    rw [hy, ← hyb]
    rfl
  · rfl

/-- **The graph is as it was, and two numbers are used up.** -/
theorem InStep.absorb_jumpless (h : InStep g) (hid : g.block? id = some x) (index : Nat) :
    (g.jumpless id index).absorb id g.nextBlock = g.usedUp := by
  have hlive := hasBlock_of_block? hid
  obtain ⟨n, hmerge, hphis⟩ := h.mergeable_splitAt hid index
  have hnone : InlinedAll (g.splitAt id x index) n.phis (g.splitAt id x index) := hphis ▸ .nil _
  obtain ⟨hkeep, n', hmerge', -⟩ :=
    hmerge.ready (h.splitAt hid index) hnone (h.jumpDropped_splitAt hid index)
  refine eq_of_views ?_ (fun c => ?_) (fun w => ?_) fun j => ?_
  · exact extent_absorb.trans extent_jumpless
  · rw [block?_usedUp]
    refine block?_congr ?_ (h.blockAt_absorb_jumpless hkeep.inStep hlive hmerge')
    have hhas : (g.jumpless id index).HasBlock c ↔ c = g.nextBlock ∨ g.HasBlock c := hasBlock_cutAt
    rw [hasBlock_absorb hmerge', hhas]
    constructor
    · rintro ⟨hc, hc' | hc'⟩
      · exact absurd hc' hc
      · exact hc'
    · intro hc
      exact ⟨fun he => not_hasBlock_nextBlock (he ▸ hc), Or.inr hc⟩
  · rw [valueAt_absorb]
    exact valueAt_cutAt
  · rw [instruction?_usedUp, h.instruction?_absorb_jumpless hlive]

/-- **A merge right after a split takes it back.**  A live block can be split before any of its
instructions, or behind the last; the split gives out a number that no block has had, and the
merge of the block goes through and returns that number.  What is live afterwards is what was live
before. -/
theorem merge_undoes_split (h : Reachable g) (hid : g.block? id = some x)
    (hindex : index ≤ x.instructions.length) :
    ∃ t g', (split id index).on g = (.ok t, g') ∧ g.blocks.length ≤ t.index ∧ g'.HasBlock t ∧
      (merge id).on g' = (.ok t, g.usedUp) ∧ SameLive g g.usedUp := by
  obtain ⟨n, hmerge, hphis⟩ := h.inStep.mergeable_splitAt hid index
  obtain ⟨hjump, hi⟩ := jump?_splitAt hid index
  refine ⟨g.nextBlock, g.splitAt id x index, ?_, Nat.le_refl _, hasBlock_of_block? hmerge.block?,
    ?_, sameLive_usedUp g⟩
  · simp [split, checkBlock_of_block? hid, Nat.not_lt.2 hindex]
  · have hdrop := dropGoto_of_jump hmerge.hasBlock hjump hi rfl
    rw [h.inStep.erase_splitAt hid index] at hdrop
    rw [hmerge.on_merge, hphis]
    simp [mergeInto, hdrop, h.inStep.absorb_jumpless hid index]

/-- A block with a loop on itself and two edges to the same exit, whose phi reads one value along
each, and which jumps before its last instruction. -/
def twoWaysOut : Graph :=
  afterAll [.addBlock, .addBlock, .addEdge ⟨0⟩ ⟨0⟩, .addEdge ⟨0⟩ ⟨1⟩, .addEdge ⟨0⟩ ⟨1⟩,
    .addInstruction ⟨0⟩ (.number 1) [] (some (.prim .int)),
    .addInstruction ⟨0⟩ .goto [] none,
    .addInstruction ⟨0⟩ (.number 2) [] (some (.prim .int)), .addPhi ⟨1⟩ (.prim .int),
    .appendOperand ⟨2⟩ ⟨0⟩, .appendOperand ⟨2⟩ ⟨1⟩] (Graph.empty none)

theorem merge_undoes_split_twoWaysOut :
    Reachable twoWaysOut ∧
      twoWaysOut.block? ⟨0⟩ =
        some ⟨[], [⟨0⟩, ⟨1⟩, ⟨2⟩], [⟨0⟩], [⟨0⟩, ⟨1⟩, ⟨1⟩]⟩ ∧
      ((split ⟨0⟩ 2).on twoWaysOut).2.block? ⟨0⟩ = some ⟨[], [⟨0⟩, ⟨1⟩, ⟨3⟩], [⟨2⟩], [⟨2⟩]⟩ ∧
      ∃ t g', (split ⟨0⟩ 2).on twoWaysOut = (.ok t, g') ∧ twoWaysOut.blocks.length ≤ t.index ∧
        g'.HasBlock t ∧ (merge ⟨0⟩).on g' = (.ok t, twoWaysOut.usedUp) ∧
        SameLive twoWaysOut twoWaysOut.usedUp := by
  have hreach : Reachable twoWaysOut := Reachable.afterAll (.empty none) _
  have hblock : twoWaysOut.block? ⟨0⟩ =
      some ⟨[], [⟨0⟩, ⟨1⟩, ⟨2⟩], [⟨0⟩], [⟨0⟩, ⟨1⟩, ⟨1⟩]⟩ := by decide
  exact ⟨hreach, hblock, by decide, merge_undoes_split hreach hblock (by decide)⟩

end Graph
end IrAnalysis
