/-
# Removing unreachable blocks keeps the lists in step

A block goes with all that lies in it, and what is left is filed as before
(`Filed.discardBlock`).  The edges of the blocks that stay are another matter: an
edge from a dead block would be listed by its target alone.  None is left.  Those that
led from a dead block to a reached one were cut before, and none leads from a reached
block to a dead one, as what is reached is closed under edges
(`InStep.mem_reachableFrom`): exploring takes one step for each block at most, and a
block is gone through before the steps run out.
-/

import IrAnalysis.Proofs.Reshaping
import IrAnalysis.Proofs.Unlinking
import Mathlib.Data.List.Perm.Subperm
import Mathlib.Data.List.Range
import Mathlib.Logic.Function.Basic
import Mathlib.Logic.Relation

namespace IrAnalysis
namespace Graph

variable {lists : BlockId → Block} {g : Graph} {b c id : BlockId} {v w : ValueId} {i j : InstId}

/-! ### Removing a block -/

/-- The instructions of a block go one by one. -/
theorem Filed.discardInstructions {is : List InstId} (h : Filed lists g)
    (his : (lists id).instructions = is) :
    Filed (Function.update lists id
        ⟨(lists id).phis, [], (lists id).predecessors, (lists id).successors⟩)
      (is.foldl Graph.discardInstruction g) := by
  induction is generalizing lists g with
  | nil =>
    have hsame : (⟨(lists id).phis, [], (lists id).predecessors, (lists id).successors⟩ : Block) =
        lists id := by
      rw [← his]
    rw [hsame, Function.update_eq_self]
    exact h
  | cons i is ih =>
    have hmem : i ∈ (lists id).instructions := his ▸ List.mem_cons_self
    obtain ⟨x, hx, hxb⟩ := Option.map_eq_some_iff.1 (h.mem_instructions.1 hmem)
    have hstep : Filed (Function.update lists id
        ⟨(lists id).phis, is, (lists id).predecessors, (lists id).successors⟩)
        (g.discardInstruction i) := by
      refine h.discardInstruction hx ?_ ?_ ?_
      · intro c
        by_cases hc : c = id <;> simp [hc]
      · intro c
        by_cases hc : c = id <;> simp [hc]
      · intro c j
        have hcount := h.instructions c j
        rw [Function.update_apply]
        by_cases hc : c = id
        · rw [hc, his, List.count_cons] at hcount
          rw [if_pos hc, hc, his, List.count_cons]
          by_cases hj : j = i
          · rw [hj, hx, Option.map_some, hxb, if_pos rfl] at hcount
            simp only [BEq.rfl, if_true] at hcount
            simp only [hj, if_true]
            omega
          · simp [hj, Ne.symm hj]
        · rw [if_neg hc]
          by_cases hj : j = i
          · rw [if_pos hj, hcount, hj, hx, Option.map_some, hxb]
            simp [Ne.symm hc]
          · rw [if_neg hj]
    have hrest := ih hstep (by rw [Function.update_self])
    rw [Function.update_self, Function.update_idem] at hrest
    exact hrest

/-- The phis of a block that was dropped go one by one, and no other block is touched. -/
theorem Filed.discardPhis {ps : List ValueId} (h : Filed lists g) (id : BlockId)
    (hps : (lists id).phis = ps) (hempty : g.blockAt id = .empty) :
    Filed (Function.update lists id
        ⟨[], (lists id).instructions, (lists id).predecessors, (lists id).successors⟩)
      (ps.foldl Graph.discardPhi g) ∧
    ∀ c, (ps.foldl Graph.discardPhi g).blockAt c = g.blockAt c := by
  induction ps generalizing lists g with
  | nil =>
    have hsame : (⟨[], (lists id).instructions, (lists id).predecessors, (lists id).successors⟩ :
        Block) = lists id := by
      rw [← hps]
    rw [hsame, Function.update_eq_self]
    exact ⟨h, fun _ => rfl⟩
  | cons v ps ih =>
    have hmem : v ∈ (lists id).phis := hps ▸ List.mem_cons_self
    obtain ⟨p, hp, hpb⟩ := Value.phiBlock?_eq_some.1 (h.mem_phis.1 hmem)
    have hblocks : ∀ c, (g.discardPhi v).blockAt c = g.blockAt c := by
      intro c
      rw [blockAt_discardPhi hp]
      by_cases hc : c = p.block
      · rw [if_pos hc, hc, hpb, hempty]
        rfl
      · rw [if_neg hc]
    have hstep : Filed (Function.update lists id
        ⟨ps, (lists id).instructions, (lists id).predecessors, (lists id).successors⟩)
        (g.discardPhi v) := by
      refine h.discardPhi hp ?_ ?_ ?_
      · intro c
        by_cases hc : c = id <;> simp [hc]
      · intro c
        by_cases hc : c = id <;> simp [hc]
      · intro c w
        have hcount := h.phis c w
        have hvb : (g.valueAt v).phiBlock? = some id := h.mem_phis.1 hmem
        rw [Function.update_apply]
        by_cases hc : c = id
        · rw [hc, hps, List.count_cons] at hcount
          rw [if_pos hc, hc, hps, List.count_cons]
          by_cases hw : w = v
          · rw [hw, hvb, if_pos rfl] at hcount
            simp only [BEq.rfl, if_true] at hcount
            simp only [hw, if_true]
            omega
          · simp [hw, Ne.symm hw]
        · rw [if_neg hc]
          by_cases hw : w = v
          · rw [if_pos hw, hcount, hw, hvb]
            simp [Ne.symm hc]
          · rw [if_neg hw]
    obtain ⟨hrest, hsame⟩ := ih hstep (by rw [Function.update_self]) (by rw [hblocks, hempty])
    rw [Function.update_self, Function.update_idem] at hrest
    exact ⟨hrest, fun c => (hsame c).trans (hblocks c)⟩

/-- **A block goes with what lies in it**, and the rest is filed as before. -/
theorem Filed.discardBlock (h : Filed g.blockAt g) (id : BlockId) :
    Filed (g.discardBlock id).blockAt (g.discardBlock id) ∧
      ∀ c, (g.discardBlock id).blockAt c = if c = id then .empty else g.blockAt c := by
  cases hid : g.block? id with
  | none =>
    have hno : ¬ g.HasBlock id := by simp [HasBlock, hid]
    have hsame : g.discardBlock id = g := by
      simp only [Graph.discardBlock, hid]
    rw [hsame]
    refine ⟨h, fun c => ?_⟩
    by_cases hc : c = id
    · rw [if_pos hc, hc, blockAt_of_not_hasBlock hno]
    · rw [if_neg hc]
  | some x =>
    have hx := blockAt_of_block? hid
    have hdropped : Filed g.blockAt (g.dropBlock id) :=
      h.transfer (fun _ => rfl) (fun _ => rfl) (fun _ _ => rfl) (fun _ _ => rfl)
        fun _ _ _ => Nat.le_refl _
    have hinsts := hdropped.discardInstructions
      (show (g.blockAt id).instructions = x.instructions by rw [hx])
    have hblocks : ∀ c, (x.instructions.foldl Graph.discardInstruction (g.dropBlock id)).blockAt c =
        if c = id then .empty else g.blockAt c := fun c =>
      (blockAt_congr (foldl_keeps (·.blocks) fun _ _ => blocks_discardInstruction) c).trans
        blockAt_dropBlock
    obtain ⟨hphis, hsame⟩ := hinsts.discardPhis id
      (show _ = x.phis by rw [Function.update_self, hx]) (by rw [hblocks, if_pos rfl])
    rw [Function.update_self, Function.update_idem] at hphis
    have heq : g.discardBlock id = x.phis.foldl Graph.discardPhi
        (x.instructions.foldl Graph.discardInstruction (g.dropBlock id)) := by
      simp only [Graph.discardBlock, hid]
    have hblockAt : ∀ c, (g.discardBlock id).blockAt c =
        if c = id then .empty else g.blockAt c := by
      intro c
      rw [heq, hsame, hblocks]
    refine ⟨?_, hblockAt⟩
    rw [← heq] at hphis
    refine hphis.relist ?_ ?_ ?_
    · intro c w
      rw [hblockAt, Function.update_apply]
      split_ifs <;> rfl
    · intro c j
      rw [hblockAt, Function.update_apply]
      split_ifs <;> rfl
    · intro c w hw
      have hmem := hphis.mem_phis.2 hw
      have harity := hphis.arity c w hw
      rw [Function.update_apply] at hmem harity
      rw [hblockAt]
      by_cases hc : c = id
      · rw [if_pos hc] at hmem
        exact absurd hmem List.not_mem_nil
      · rw [if_neg hc] at harity ⊢
        exact harity

/-- Several blocks go. -/
theorem Filed.discardBlocks {l : List BlockId} (h : Filed g.blockAt g) :
    Filed (l.foldl Graph.discardBlock g).blockAt (l.foldl Graph.discardBlock g) ∧
      ∀ c, (l.foldl Graph.discardBlock g).blockAt c = if c ∈ l then .empty else g.blockAt c := by
  induction l generalizing g with
  | nil => exact ⟨h, fun _ => rfl⟩
  | cons b l ih =>
    obtain ⟨hstep, hblocks⟩ := h.discardBlock b
    obtain ⟨hrest, hsame⟩ := ih hstep
    refine ⟨hrest, fun c => ?_⟩
    rw [List.foldl_cons, hsame, hblocks]
    by_cases hb : c = b <;> simp [hb]

/-! ### What a block leads to -/

/-- There is an edge from the one block to the other. -/
def Leads (g : Graph) (b c : BlockId) : Prop := c ∈ (g.blockAt b).successors

theorem InStep.hasBlock_of_leads (h : InStep g) (hbc : g.Leads b c) : g.HasBlock c := by
  have hpos : 0 < (g.blockAt c).predecessors.count b := by
    rw [← h.mirrored b c]
    exact List.count_pos_iff.2 hbc
  exact hasBlock_of_mem (f := (·.predecessors)) rfl (List.count_pos_iff.1 hpos)

/-- There are no more live blocks than places for them. -/
theorem length_le_of_hasBlock {l : List BlockId} (hnodup : l.Nodup)
    (hlive : ∀ b ∈ l, g.HasBlock b) : l.length ≤ g.blocks.length := by
  have hinj : Function.Injective BlockId.index := by
    rintro ⟨m⟩ ⟨n⟩ hmn
    exact congrArg BlockId.mk hmn
  have hsub : l.map BlockId.index ⊆ List.range g.blocks.length := by
    intro k hk
    obtain ⟨b, hb, rfl⟩ := List.mem_map.1 hk
    obtain ⟨x, hx⟩ := Option.isSome_iff_exists.1 (hlive b hb)
    have hlt : b.index < g.blocks.length := by
      by_contra hge
      rw [block?, List.getElem?_eq_none (by omega)] at hx
      simp at hx
    exact List.mem_range.2 hlt
  have hle := (List.subperm_of_subset (hnodup.map hinj) hsub).length_le
  rwa [List.length_map, List.length_range] at hle

theorem mark_eq_enter (seen work l : List BlockId) : mark seen work l = enter seen work l := by
  induction l generalizing seen work with
  | nil => rfl
  | cons b l ih => rw [mark, enter, ih, ih]

/-- **Exploring finds all that the blocks in `work` lead to**, beside what was gone through
before: `done` holds the blocks whose successors are seen, and the steps that are left are enough
for all others. -/
theorem InStep.explore (h : InStep g) (fuel : Nat) (done work : List BlockId)
    (hnodup : (done ++ work).Nodup) (hlive : ∀ x ∈ done ++ work, g.HasBlock x)
    (hclosed : ∀ x ∈ done, ∀ y, g.Leads x y → y ∈ done ++ work)
    (hfuel : g.blocks.length ≤ fuel + done.length) :
    (∀ x ∈ done ++ work, x ∈ g.explore fuel (done ++ work) work) ∧
      (∀ x ∈ g.explore fuel (done ++ work) work,
        ∃ y ∈ done ++ work, Relation.ReflTransGen g.Leads y x) ∧
      ∀ x ∈ g.explore fuel (done ++ work) work, ∀ y, g.Leads x y →
        y ∈ g.explore fuel (done ++ work) work := by
  induction fuel generalizing done work with
  | zero =>
    have hle := length_le_of_hasBlock hnodup hlive
    have hwork : work = [] := by
      rw [List.length_append] at hle
      exact List.eq_nil_of_length_eq_zero (by omega)
    subst hwork
    rw [List.append_nil] at hclosed ⊢
    exact ⟨fun _ hx => hx, fun x hx => ⟨x, hx, .refl⟩, hclosed⟩
  | succ fuel ih =>
    cases work with
    | nil =>
      rw [List.append_nil] at hclosed ⊢
      exact ⟨fun _ hx => hx, fun x hx => ⟨x, hx, .refl⟩, hclosed⟩
    | cons b work =>
      obtain ⟨fresh, heq, hall, hnew, -, hkeep⟩ := enter_eq (done ++ b :: work) work
        (((g.block? b).map (·.successors)).getD [])
      have hsucc : ((g.block? b).map (·.successors)).getD [] = (g.blockAt b).successors := by
        rw [blockAt]
        cases g.block? b <;> rfl
      rw [hsucc] at hall hnew
      have hlist : done ++ b :: work ++ fresh = done ++ [b] ++ (work ++ fresh) := by simp
      have hstep : g.explore (fuel + 1) (done ++ b :: work) (b :: work) =
          g.explore fuel (done ++ [b] ++ (work ++ fresh)) (work ++ fresh) := by
        rw [Graph.explore, mark_eq_enter, heq, hlist]
      rw [hlist] at hall hkeep
      have hfresh : ∀ x ∈ fresh, g.Leads b x := hnew
      have hrest := ih _ _ (hkeep hnodup) ?_ ?_ ?_
      · rw [hstep]
        obtain ⟨hsub, hfrom, hcl⟩ := hrest
        refine ⟨fun x hx => hsub x ?_, fun x hx => ?_, hcl⟩
        · rw [← hlist]
          exact List.mem_append_left _ hx
        · obtain ⟨y, hy, hyx⟩ := hfrom x hx
          rw [← hlist] at hy
          rcases List.mem_append.1 hy with hy | hy
          · exact ⟨y, hy, hyx⟩
          · exact ⟨b, by simp, .head (hfresh y hy) hyx⟩
      · intro x hx
        rw [← hlist] at hx
        rcases List.mem_append.1 hx with hx | hx
        · exact hlive x hx
        · exact h.hasBlock_of_leads (hfresh x hx)
      · intro x hx y hxy
        rcases List.mem_append.1 hx with hx | hx
        · rw [← hlist]
          exact List.mem_append_left _ (hclosed x hx y hxy)
        · rw [List.mem_singleton.1 hx] at hxy
          exact hall y hxy
      · rw [List.length_append, List.length_singleton]
        omega

/-- **What is reached from a live block is what it leads to.** -/
theorem InStep.mem_reachableFrom (h : InStep g) (hb : g.HasBlock b) :
    c ∈ g.reachableFrom b ↔ Relation.ReflTransGen g.Leads b c := by
  have hstart := h.explore g.blocks.length [] [b] (List.nodup_singleton b)
    (fun x hx => List.mem_singleton.1 hx ▸ hb)
    (fun _ hx => absurd hx List.not_mem_nil) (Nat.le_refl _)
  rw [List.nil_append] at hstart
  obtain ⟨hsub, hfrom, hcl⟩ := hstart
  constructor
  · intro hc
    obtain ⟨y, hy, hyc⟩ := hfrom c hc
    exact List.mem_singleton.1 hy ▸ hyc
  · intro hbc
    induction hbc with
    | refl => exact hsub b List.mem_cons_self
    | tail _ hxy ih => exact hcl _ ih _ hxy

/-! ### Removing what is not reached -/

theorem mem_liveBlocks {x : Block} : (b, x) ∈ g.liveBlocks ↔ g.block? b = some x := by
  simp only [liveBlocks, List.mem_filterMap, Prod.exists, List.mem_zipIdx_iff_getElem?,
    Option.map_eq_some_iff, Prod.mk.injEq, block?, Option.join_eq_some_iff]
  constructor
  · rintro ⟨y, k, hy, x', rfl, rfl, rfl⟩
    exact hy
  · intro hx
    exact ⟨some x, b.index, hx, x, rfl, rfl, rfl⟩

theorem mem_liveOutside {reached : List BlockId} :
    b ∈ g.liveOutside reached ↔ g.HasBlock b ∧ b ∉ reached := by
  have hlive : b ∈ g.liveBlocks.map (·.1) ↔ g.HasBlock b := by
    simp only [List.mem_map, Prod.exists, mem_liveBlocks, HasBlock, Option.isSome_iff_exists]
    constructor
    · rintro ⟨c, x, hx, rfl⟩
      exact ⟨x, hx⟩
    · rintro ⟨x, hx⟩
      exact ⟨b, x, hx, rfl⟩
  rw [liveOutside, List.mem_filter, hlive, decide_eq_true_iff]

theorem InStep.unlinkAll (h : InStep g) (reached dead : List BlockId) :
    InStep (dead.foldl (Graph.unlinkInto reached) g) ∧
      (∀ c, (dead.foldl (Graph.unlinkInto reached) g).HasBlock c ↔ g.HasBlock c) ∧
      ∀ c x, ((dead.foldl (Graph.unlinkInto reached) g).blockAt c).successors.count x =
        if c ∈ dead ∧ x ∈ reached then 0 else (g.blockAt c).successors.count x := by
  induction dead generalizing g with
  | nil => exact ⟨h, fun _ => Iff.rfl, fun _ _ => by simp⟩
  | cons b dead ih =>
    obtain ⟨hstep, hhas, hcount⟩ := h.unlinkInto reached b
    obtain ⟨hrest, hhas', hcount'⟩ := ih hstep
    refine ⟨hrest, fun c => (hhas' c).trans (hhas c), fun c x => ?_⟩
    rw [List.foldl_cons, hcount', hcount]
    by_cases hx : x ∈ reached <;> by_cases hc : c = b <;> simp [hx, hc]

theorem hasBlock_entry {entry : BlockId} (hentry : entry? g = some entry) :
    g.HasBlock entry := by
  simp only [ entry?, Option.map_eq_some_iff] at hentry
  obtain ⟨x, hx, rfl⟩ := hentry
  exact hasBlock_of_block? hx

/-- **The blocks that the entry does not lead to go, and the lists of the rest stay in step.** -/
theorem InStep.removeUnreachable (h : InStep g) : InStep g.removeUnreachable.1 := by
  unfold Graph.removeUnreachable
  cases hentry : entry? g with
  | none => exact h
  | some entry =>
    have hlive := hasBlock_entry hentry
    show InStep ((g.liveOutside (g.reachableFrom entry)).foldl Graph.discardBlock _)
    set reached := g.reachableFrom entry with hreached
    set dead := g.liveOutside reached with hdead
    obtain ⟨hcut, hhas, hcount⟩ := h.unlinkAll reached dead
    obtain ⟨hfiled, hblocks⟩ := hcut.filed.discardBlocks (l := dead)
    refine ⟨hfiled, fun s t => ?_⟩
    have hst := hcut.mirrored s t
    rw [hblocks, hblocks]
    by_cases hs : s ∈ dead
    · rw [if_pos hs]
      by_cases ht : t ∈ dead
      · rw [if_pos ht]
        rfl
      · -- What stays is reached, and what is reached was cut off from the dead blocks.
        rw [if_neg ht, ← hst, hcount]
        by_cases htr : t ∈ reached
        · rw [if_pos ⟨hs, htr⟩]
          rfl
        · have hno : ¬ g.HasBlock t := fun hlt => ht (mem_liveOutside.2 ⟨hlt, htr⟩)
          rw [if_neg fun hboth => htr hboth.2, (h.unlisted hno s).1]
          rfl
    · rw [if_neg hs]
      by_cases ht : t ∈ dead
      · -- A reached block leads to reached ones alone.
        rw [if_pos ht, hcount, if_neg fun hboth => hs hboth.1]
        refine List.count_eq_zero.2 fun hmem => ?_
        have hsr : s ∈ reached := by
          by_contra hsr
          exact hs (mem_liveOutside.2 ⟨hasBlock_of_mem (f := (·.successors)) rfl hmem, hsr⟩)
        have htr : t ∈ reached := by
          rw [hreached, h.mem_reachableFrom hlive] at hsr ⊢
          exact hsr.tail hmem
        exact (mem_liveOutside.1 ht).2 htr
      · rw [if_neg ht]
        exact hst

end Graph
end IrAnalysis
