/-
# What a merge leaves to be done

A way through a graph starts at the entry and goes from block to successor.  What is done on it
are the instructions of its blocks in turn, without the jumps, which do nothing but go
on.  A merge puts the instructions of two blocks into one that only followed each other, so the
same is done on the ways from the entry (`merge_traces`).

A merge lets others read the operand of a phi for the phi.  What is done is therefore compared under
every way `read` to read values that does not tell a phi of the merged block from its operand.

The entry is kept if it is not the block that goes.  That block has one predecessor, yet the entry
is where control comes from without one, and a merge does not ask for that.
-/

import IrAnalysis.Proofs.Merging
import IrAnalysis.Proofs.LockStep

namespace IrAnalysis

/-- What an instruction does, to operands as they are read. -/
structure Event (α : Type) where
  instruction : InstId
  operation : Operation
  operands : List α
  output : Option ValueId

namespace Graph

open Edit

variable {α : Type} {g g' : Graph} {b c id next : BlockId} {v w : ValueId} {i j : InstId}
  {vs : List ValueId} {read : ValueId → α} {l : List (Event α)} {ended : Bool}

/-- What a live instruction does, if it is no jump. -/
def event? (g : Graph) (read : ValueId → α) (i : InstId) : Option (Event α) :=
  (g.instruction? i).bind fun x =>
    if x.operation = .goto then none
    else some ⟨i, x.operation, x.operands.map read, x.output⟩

/-- What is done in a block, from its first instruction to its last. -/
def events (g : Graph) (read : ValueId → α) (b : BlockId) : List (Event α) :=
  (g.blockAt b).instructions.filterMap (g.event? read)

/-- **What is done on a way from a block**, up to any point or, if `ended` says so, to the end of
a block from which there is no way on. -/
inductive Runs (g : Graph) (read : ValueId → α) : BlockId → List (Event α) → Bool → Prop
  | cut {b : BlockId} {l : List (Event α)} : l <+: g.events read b → Runs g read b l false
  | stop {b : BlockId} : (g.blockAt b).successors = [] → Runs g read b (g.events read b) true
  | go {b c : BlockId} {l : List (Event α)} {ended : Bool} : c ∈ (g.blockAt b).successors →
      Runs g read c l ended → Runs g read b (g.events read b ++ l) ended

/-- What is done on a way from the entry. -/
def Traces (g : Graph) (read : ValueId → α) (l : List (Event α)) (ended : Bool) : Prop :=
  ∃ b, entry? g = some b ∧ Runs g read b l ended

/-- A phi of the block is read as what flows into it. -/
def ReadsThrough (g : Graph) (b : BlockId) (read : ValueId → α) : Prop :=
  ∀ v ∈ (g.blockAt b).phis, ∀ w ∈ (g.valueAt v).phiOperands, read v = read w

theorem entry?_eq_some : entry? g = some b ↔ b = ⟨0⟩ ∧ g.HasBlock ⟨0⟩ := by
  simp only [ entry?, Option.map_eq_some_iff, HasBlock, Option.isSome_iff_exists]
  constructor
  · rintro ⟨x, hx, rfl⟩
    exact ⟨rfl, x, hx⟩
  · rintro ⟨rfl, x, hx⟩
    exact ⟨x, hx, rfl⟩

theorem entry?_congr (hhas : g'.HasBlock ⟨0⟩ ↔ g.HasBlock ⟨0⟩) : entry? g' = entry? g := by
  ext b
  rw [entry?_eq_some, entry?_eq_some, hhas]

/-- Graphs whose blocks do the same and go on to the same have the same runs. -/
theorem Runs.congr (hevents : ∀ b, g'.events read b = g.events read b)
    (hsucc : ∀ b, (g'.blockAt b).successors = (g.blockAt b).successors)
    (h : Runs g read b l ended) : Runs g' read b l ended := by
  induction h with
  | cut hl => exact .cut (hevents _ ▸ hl)
  | stop hnone => exact hevents _ ▸ .stop ((hsucc _).trans hnone)
  | go hc _ ih => exact hevents _ ▸ .go (hsucc _ ▸ hc) ih

/-! ### Phis give way and the jump goes -/

theorem Inlined.readsThrough (hone : Inlined g g' v w) (hread : ReadsThrough g b read)
    (hvw : read v = read w) : ReadsThrough g' b read := by
  intro u hu x hx
  rw [hone.phis, List.mem_filter, decide_eq_true_iff] at hu
  rw [hone.phiOperands, if_neg hu.2] at hx
  obtain ⟨y, hy, rfl⟩ := List.mem_map.1 hx
  have huy := hread u hu.1 y hy
  split_ifs with hyv
  · rw [huy, hyv, hvw]
  · exact huy

theorem Inlined.events (hone : Inlined g g' v w) (hvw : read v = read w) (b : BlockId) :
    g'.events read b = g.events read b := by
  have hevent : g'.event? read = g.event? read := by
    funext j
    rw [event?, hone.instruction?, event?]
    cases g.instruction? j with
    | none => rfl
    | some x =>
      have hmap : (swapped v w x.operands).map read = x.operands.map read := by
        rw [swapped, List.map_map]
        refine List.map_congr_left fun u _ => ?_
        by_cases hu : u = v <;> simp [hu, hvw]
      simp only [Option.map_some, Option.bind_some, hmap]
  rw [Graph.events, hone.instructions, hevent, Graph.events]

theorem InlinedAll.events (hall : InlinedAll g vs g') (hvs : ∀ v ∈ vs, v ∈ (g.blockAt next).phis)
    (hread : ReadsThrough g next read) (b : BlockId) : g'.events read b = g.events read b := by
  induction hall with
  | nil g => rfl
  | @cons g g₁ g' v w vs hone hrest ih =>
    rw [List.forall_mem_cons] at hvs
    obtain ⟨p, hp, hhead⟩ := hone.operand
    have hvw : read v = read w := by
      refine hread v hvs.1 w ?_
      rw [Value.phiOperands_of_livePhi? hp]
      exact List.mem_of_head? hhead
    rw [ih (fun u hu => ?_) (hone.readsThrough hread hvw), hone.events hvw]
    rw [hone.phis, List.mem_filter, decide_eq_true_iff]
    exact ⟨hvs.2 u hu, hone.ne_of_mem hrest hu⟩

/-- A jump that goes was no event. -/
theorem JumpDropped.events (hjump : JumpDropped g id g') (b : BlockId) :
    g'.events read b = g.events read b := by
  cases hjump with
  | same => rfl
  | @jump i x hlast hi hunused =>
    obtain ⟨-, y, hy, hgoto⟩ := jump?_eq_some.1 hlast
    have hnone : g.event? read i = none := by
      rw [event?, hy, Option.bind_some, if_pos hgoto]
    have hevent : (g.eraseInstruction i).event? read = g.event? read := by
      funext j
      rw [event?, instruction?_eraseInstruction hi]
      by_cases hj : j = i
      · rw [if_pos hj, hj, hnone]
        rfl
      · rw [if_neg hj, event?]
    rw [Graph.events, hevent, blockAt_eraseInstruction hi, Graph.events]
    split_ifs
    · rw [List.filterMap_filter]
      refine List.filterMap_congr fun j _ => ?_
      by_cases hj : j = i <;> simp [hj, hnone]
    · rfl

/-! ### The block is taken over -/

section Absorbing

variable {n : Block}

theorem hasBlock_absorb (hmerge : Mergeable g id next n) :
    (g.absorb id next).HasBlock c ↔ c ≠ next ∧ g.HasBlock c := by
  simp only [absorb, hmerge.block?]
  rw [hasBlock_modifyBlock, hasBlock_renamePredecessor, hasBlock_congr blocks_assignBlock,
    HasBlock, block?_dropBlock]
  split_ifs with hc
  · simp [hc]
  · simp [hc, HasBlock]

/-- What is done in the second block is done at the end of the first. -/
theorem Mergeable.events_absorb (hmerge : Mergeable g id next n) (h : InStep g) (hb : b ≠ next) :
    (g.absorb id next).events read b =
      if b = id then g.events read id ++ g.events read next else g.events read b := by
  have hevent : (g.absorb id next).event? read = g.event? read := by
    funext j
    rw [event?, instruction?_absorb, event?]
    split_ifs
    · cases g.instruction? j <;> rfl
    · rfl
  rw [events, hevent, blockAt_absorb h hmerge.hasBlock hmerge.block? hmerge.ne, if_neg hb]
  split_ifs with hid
  · rw [List.filterMap_append, ← blockAt_of_block? hmerge.block?]
    rfl
  · rfl

theorem Mergeable.successors_absorb (hmerge : Mergeable g id next n) (h : InStep g)
    (hb : b ≠ next) : ((g.absorb id next).blockAt b).successors =
      if b = id then (g.blockAt next).successors else (g.blockAt b).successors := by
  rw [blockAt_absorb h hmerge.hasBlock hmerge.block? hmerge.ne, if_neg hb,
    blockAt_of_block? hmerge.block?]

/-- Only the first block leads to the second. -/
theorem Mergeable.eq_of_leads (hmerge : Mergeable g id next n) (h : InStep g)
    (hb : next ∈ (g.blockAt b).successors) : b = id := by
  rw [← List.count_pos_iff, h.mirrored b next, blockAt_of_block? hmerge.block?,
    hmerge.predecessors, List.count_pos_iff] at hb
  exact List.mem_singleton.1 hb

/-- Every way through the two blocks is a way through the one. -/
theorem Mergeable.runs_absorb (hmerge : Mergeable g id next n) (h : InStep g)
    (hrun : Runs g read b l ended) : (b ≠ next → Runs (g.absorb id next) read b l ended) ∧
      (b = next → Runs (g.absorb id next) read id (g.events read id ++ l) ended) := by
  have hid : id ≠ next := Ne.symm hmerge.ne
  have hboth : (g.absorb id next).events read id = g.events read id ++ g.events read next := by
    rw [hmerge.events_absorb h hid, if_pos rfl]
  have hlast : ((g.absorb id next).blockAt id).successors = (g.blockAt next).successors := by
    rw [hmerge.successors_absorb h hid, if_pos rfl]
  induction hrun with
  | @cut b l hl =>
    refine ⟨fun hb => .cut ?_, fun hb => .cut ?_⟩
    · rw [hmerge.events_absorb h hb]
      split_ifs with hbid
      · exact (hbid ▸ hl).trans (List.prefix_append _ _)
      · exact hl
    · rw [hboth]
      exact (List.prefix_append_right_inj _).2 (hb ▸ hl)
  | @stop b hnone =>
    refine ⟨fun hb => ?_, fun hb => ?_⟩
    · have hbid : b ≠ id := by
        rintro rfl
        rw [hmerge.successors] at hnone
        exact absurd hnone (by simp)
      have hrest : Runs (g.absorb id next) read b _ true :=
        .stop (by rw [hmerge.successors_absorb h hb, if_neg hbid]; exact hnone)
      rwa [hmerge.events_absorb h hb, if_neg hbid] at hrest
    · have hrest : Runs (g.absorb id next) read id _ true :=
        .stop (by rw [hlast]; exact hb ▸ hnone)
      rw [hboth] at hrest
      exact hb ▸ hrest
  | @go b c l ended hc _ ih =>
    refine ⟨fun hb => ?_, fun hb => ?_⟩
    · by_cases hbid : b = id
      · -- The only way on from the first block is the second.
        subst hbid
        rw [hmerge.successors, List.mem_singleton] at hc
        exact ih.2 hc
      · have hcn : c ≠ next := fun he => hbid (hmerge.eq_of_leads h (he ▸ hc))
        have hrest : Runs (g.absorb id next) read b _ ended :=
          .go (by rw [hmerge.successors_absorb h hb, if_neg hbid]; exact hc) (ih.1 hcn)
        rwa [hmerge.events_absorb h hb, if_neg hbid] at hrest
    · subst hb
      have hcn : c ≠ b := fun he => hmerge.ne (hmerge.eq_of_leads h (he ▸ hc))
      have hrest : Runs (g.absorb id b) read id _ ended := .go (by rw [hlast]; exact hc) (ih.1 hcn)
      rwa [hboth, List.append_assoc] at hrest

/-- Every way through the one block is a way through the two. -/
theorem Mergeable.runs_of_absorb (hmerge : Mergeable g id next n) (h : InStep g)
    (hrun : Runs (g.absorb id next) read b l ended) (hb : b ≠ next) : Runs g read b l ended := by
  have hnext : next ∈ (g.blockAt id).successors := by
    rw [hmerge.successors]
    exact List.mem_singleton_self next
  induction hrun with
  | @cut b l hl =>
    rw [hmerge.events_absorb h hb] at hl
    split_ifs at hl with hbid
    · subst hbid
      obtain ⟨t, ht⟩ := hl
      rcases List.append_eq_append_iff.1 ht with ⟨t', hfirst, -⟩ | ⟨l', rfl, hsecond⟩
      · exact .cut ⟨t', hfirst.symm⟩
      · exact .go hnext (.cut ⟨t, hsecond.symm⟩)
    · exact .cut hl
  | @stop b hnone =>
    rw [hmerge.successors_absorb h hb] at hnone
    rw [hmerge.events_absorb h hb]
    split_ifs at hnone ⊢ with hbid
    · subst hbid
      exact .go hnext (.stop hnone)
    · exact .stop hnone
  | @go b c l ended hc _ ih =>
    rw [hmerge.successors_absorb h hb] at hc
    rw [hmerge.events_absorb h hb]
    split_ifs at hc ⊢ with hbid
    · subst hbid
      have hcn : c ≠ next := fun he => hmerge.ne (hmerge.eq_of_leads h (he ▸ hc))
      rw [List.append_assoc]
      exact .go hnext (.go hc (ih hcn))
    · have hcn : c ≠ next := fun he => hbid (hmerge.eq_of_leads h (he ▸ hc))
      exact .go hc (ih hcn)

end Absorbing

/-! ### The merge -/

/-- **A merge keeps the entry exactly if the entry is not the block that goes, and then the same is
done on the ways from it**, under every reading of values that does not tell a phi of that block
from its operand. -/
theorem merge_traces (h : Reachable g) (hok : ((merge id).on g).1 = .ok next) :
    ( entry? ((merge id).on g).2 = entry? g ↔ entry? g ≠ some next) ∧
      ( entry? g ≠ some next → ∀ {α : Type} (read : ValueId → α), ReadsThrough g next read →
        ∀ l ended, ((merge id).on g).2.Traces read l ended ↔ g.Traces read l ended) := by
  obtain ⟨n, g₁, g₂, hmerge, hall, hjump, hon⟩ := h.inStep.merge_ok hok
  obtain ⟨hkeep, n', hmerge', -⟩ := hmerge.ready h.inStep hall hjump
  have hn := blockAt_of_block? hmerge.block?
  have hhas : ∀ c, ((merge id).on g).2.HasBlock c ↔ c ≠ next ∧ g.HasBlock c := by
    intro c
    rw [hon, hasBlock_absorb hmerge', hkeep.hasBlock]
  have hentry : entry? g ≠ some next → entry? ((merge id).on g).2 = entry? g := by
    intro hne
    refine entry?_congr ?_
    rw [hhas]
    refine ⟨fun h => h.2, fun hlive => ⟨fun he => hne (entry?_eq_some.2 ⟨he.symm, hlive⟩), hlive⟩⟩
  refine ⟨⟨fun hsame hnext => ?_, hentry⟩, fun hne α read hread l ended => ?_⟩
  · rw [hnext, entry?_eq_some, hhas] at hsame
    exact hsame.2.1 hsame.1.symm
  · have hphis : ∀ v ∈ n.phis, v ∈ (g.blockAt next).phis := fun v hv => hn ▸ hv
    have hevents : ∀ b, g₂.events read b = g.events read b := fun b =>
      (hjump.events b).trans (hall.events hphis hread b)
    unfold Traces
    rw [hentry hne, hon]
    refine exists_congr fun b => and_congr_right fun hb => ?_
    have hbn : b ≠ next := fun he => hne (he ▸ hb)
    constructor
    · intro hrun
      exact (hmerge'.runs_of_absorb hkeep.inStep hrun hbn).congr (fun b => (hevents b).symm)
        fun b => (hkeep.successors b).symm
    · intro hrun
      exact (hmerge'.runs_absorb hkeep.inStep (hrun.congr hevents hkeep.successors)).1 hbn

/-- The block after the entry is taken over by it, and its phi is read as the number. -/
theorem merge_traces_entry :
    let g := afterAll [.addBlock, .addBlock, .addEdge ⟨0⟩ ⟨1⟩,
      .addInstruction ⟨0⟩ (.number 1) [] (some (.prim .int)), .addPhi ⟨1⟩ (.prim .int),
      .appendOperand ⟨1⟩ ⟨0⟩, .addInstruction ⟨0⟩ .goto [] none,
      .addInstruction ⟨1⟩ .ret [⟨1⟩] none] (Graph.empty none)
    let read : ValueId → ValueId := fun v => if v = ⟨1⟩ then ⟨0⟩ else v
    ((merge ⟨0⟩).on g).1 = .ok ⟨1⟩ ∧ entry? ((merge ⟨0⟩).on g).2 = entry? g ∧
      ReadsThrough g ⟨1⟩ read ∧
      ∀ l ended, ((merge ⟨0⟩).on g).2.Traces read l ended ↔ g.Traces read l ended := by
  intro g read
  have hok : ((merge ⟨0⟩).on g).1 = .ok ⟨1⟩ := rfl
  have hentry : entry? g ≠ some ⟨1⟩ := by decide
  have hread : ReadsThrough g ⟨1⟩ read := by unfold ReadsThrough; decide
  have hmerge := merge_traces (Reachable.afterAll (.empty none) _) hok
  exact ⟨hok, hmerge.1.2 hentry, hread, hmerge.2 hentry read hread⟩

/-- A merge that removes the entry: the block before it in a loop takes it over. -/
theorem merge_removes_entry :
    let g := afterAll [.addBlock, .addBlock, .addEdge ⟨0⟩ ⟨1⟩, .addEdge ⟨1⟩ ⟨0⟩,
      .addInstruction ⟨0⟩ (.number 1) [] (some (.prim .int))] (Graph.empty none)
    Reachable g ∧ g.verify = .ok () ∧ ((merge ⟨1⟩).on g).1 = .ok ⟨0⟩ ∧ entry? g = some ⟨0⟩ ∧
      entry? ((merge ⟨1⟩).on g).2 = none :=
  ⟨Reachable.afterAll (.empty none) _, rfl, rfl, rfl, rfl⟩

end Graph
end IrAnalysis
