/-
# What flows into phis

A phi reads its operands by place: the operand at a place flows in from the predecessor at the
same place in the list of its block.  The two lists are kept apart and changed apart, so an edit
that takes a member out of one must take the member at the same place out of the other.
`Graph.incoming` pairs them, and the edits that reshape a graph are told by what they do to the
pairs (`edits_rewire_phis`).

A phi of a complete graph has one operand for each predecessor, so nothing is lost in pairing
them, before an edit or after it (`Rewired.filled`).
-/

import IrAnalysis.Proofs.Grounded

namespace IrAnalysis

/-! ### Lists -/

theorem zip_eraseIdx {α β : Type} (l : List α) (l' : List β) (i : Nat) :
    (l.eraseIdx i).zip (l'.eraseIdx i) = (l.zip l').eraseIdx i := by
  induction l generalizing l' i with
  | nil => simp
  | cons a l ih =>
    cases l' with
    | nil => simp
    | cons b l' =>
      cases i with
      | zero => rfl
      | succ i => exact congrArg ((a, b) :: ·) (ih l' i)

/-- What a filter leaves out anyway may go before. -/
theorem filter_eraseIdx {α : Type} {l : List α} {i : Nat} {keep : α → Bool}
    (hi : ∀ a, l[i]? = some a → keep a = false) :
    (l.eraseIdx i).filter keep = l.filter keep := by
  induction l generalizing i with
  | nil => rfl
  | cons a l ih =>
    cases i with
    | zero => rw [List.eraseIdx_cons_zero, List.filter_cons, hi a rfl]; rfl
    | succ i => rw [List.eraseIdx_cons_succ, List.filter_cons, List.filter_cons, ih hi]

namespace Graph

open Edit

variable {g g' g₁ g₂ : Graph} {b c id next s t : BlockId} {u v w : ValueId} {vs : List ValueId}
  {reached dead : List BlockId}

/-- The predecessors of the block of a live phi. -/
def sources (g : Graph) (v : ValueId) : List BlockId :=
  match (g.valueAt v).phiBlock? with
  | some b => (g.blockAt b).predecessors
  | none => []

/-- **What flows into a live phi**: its operands, each with the predecessor from which it comes. -/
def incoming (g : Graph) (v : ValueId) : List (BlockId × ValueId) :=
  (g.sources v).zip (g.valueAt v).phiOperands

theorem sources_of_phiBlock? (hv : (g.valueAt v).phiBlock? = some b) :
    g.sources v = (g.blockAt b).predecessors := by
  rw [sources, hv]

theorem incoming_of_phiBlock?_none (hv : (g.valueAt v).phiBlock? = none) : g.incoming v = [] := by
  rw [incoming, sources, hv]
  rfl

/-- **The phis of `g'` are those of `g` that stay**, each in its block and with an operand for each
predecessor; and `change` says what became of the pairs of each. -/
structure Rewired (g g' : Graph) (stays : ValueId → Prop)
    (change : ValueId → List (BlockId × ValueId) → List (BlockId × ValueId)) : Prop where
  filled : Filled g'
  stays_iff : ∀ v b, (g'.valueAt v).phiBlock? = some b ↔
    (g.valueAt v).phiBlock? = some b ∧ stays v
  incoming : ∀ v, (g'.valueAt v).phiBlock?.isSome → g'.incoming v = change v (g.incoming v)

/-- Both lists change member by member. -/
theorem incoming_map (label : BlockId → BlockId) (operand : ValueId → ValueId)
    (hsources : g'.sources v = (g.sources v).map label)
    (hops : (g'.valueAt v).phiOperands = (g.valueAt v).phiOperands.map operand) :
    g'.incoming v = (g.incoming v).map fun e => (label e.1, operand e.2) := by
  rw [Graph.incoming, hsources, hops, List.zip_map]
  rfl

/-! ### Splitting a block -/

theorem Complete.rewired_splitAt (hg : Complete g) (h : InStep g) {x : Block}
    (hid : g.block? id = some x) (index : Nat) :
    Rewired g (g.splitAt id x index) (fun _ => True) fun _ l =>
      l.map fun e => (if e.1 = id then g.nextBlock else e.1, e.2) where
  filled := (hg.splitAt h hid index).filled
  stays_iff v b := by rw [valueAt_splitAt hid, and_iff_left trivial]
  incoming v hv := by
    obtain ⟨b, hb⟩ := Option.isSome_iff_exists.1 hv
    have hb' := hb
    rw [valueAt_splitAt hid] at hb'
    refine incoming_map (fun p => if p = id then g.nextBlock else p) (fun w => w) ?_ ?_
    · rw [sources_of_phiBlock? hb, sources_of_phiBlock? hb',
        h.predecessors_splitAt hid index (h.ne_nextBlock hb')]
    · rw [valueAt_splitAt hid, List.map_id']

/-! ### Merging two blocks -/

/-- **Where the phis that give way do not read each other**, what read one of them reads its operand
in the end. -/
theorem InlinedAll.reads (hall : InlinedAll g vs g') {operand : ValueId → ValueId}
    (hops : ∀ v ∈ vs, (g.valueAt v).phiOperands = [operand v])
    (hapart : ∀ v ∈ vs, operand v ∉ vs) :
    (∀ u, (g'.valueAt u).phiBlock? = if u ∈ vs then none else (g.valueAt u).phiBlock?) ∧
      ∀ u ∉ vs, (g'.valueAt u).phiOperands =
        (g.valueAt u).phiOperands.map fun w => if w ∈ vs then operand w else w := by
  induction hall with
  | nil g => exact ⟨fun u => rfl, fun u _ => by simp⟩
  | @cons g g₁ g' v w vs hone hrest ih =>
    rw [List.forall_mem_cons] at hops hapart
    obtain rfl : operand v = w := by
      obtain ⟨p, hp, hhead⟩ := hone.operand
      rw [← Value.phiOperands_of_livePhi? hp, hops.1] at hhead
      exact Option.some.inj hhead
    have hne : ∀ u ∈ vs, u ≠ v := fun u hu => hone.ne_of_mem hrest hu
    obtain ⟨hblock, hreads⟩ := ih
      (fun u hu => by
        have hstay : operand u ≠ v := fun he => hapart.2 u hu (he ▸ List.mem_cons_self)
        rw [hone.phiOperands, if_neg (hne u hu), hops.2 u hu]
        exact congrArg (fun x => [x]) (instead_of_ne hstay))
      fun u hu hmem => hapart.2 u hu (List.mem_cons_of_mem v hmem)
    refine ⟨fun u => ?_, fun u hu => ?_⟩
    · rw [hblock, hone.phiBlock?]
      by_cases huv : u = v <;> by_cases hu : u ∈ vs <;> simp [huv, hu]
    · obtain ⟨huv, hu⟩ := not_or.1 (mt List.mem_cons.2 hu)
      rw [hreads u hu, hone.phiOperands, if_neg huv, swapped, List.map_map]
      refine List.map_congr_left fun x _ => ?_
      -- The operand of `v` is none of those that are still to give way.
      have hout : operand v ∉ vs := fun hmem => hapart.1 (List.mem_cons_of_mem v hmem)
      by_cases hx : x = v
      · simp [hx, hout]
      · simp [hx]

/-- A phi of the successor has one operand, as the successor has one predecessor. -/
theorem Mergeable.exists_operand {n : Block} (hmerge : Mergeable g id next n) (hg : Complete g)
    (h : InStep g) : ∃ operand : ValueId → ValueId,
      ∀ v ∈ n.phis, (g.valueAt v).phiOperands = [operand v] := by
  refine ⟨fun v => (g.valueAt v).phiOperands.head?.getD v, fun v hv => ?_⟩
  have hn := blockAt_of_block? hmerge.block?
  have hlen := hg.filled next v (h.filed.mem_phis.1 (hn ▸ hv))
  rw [hn, hmerge.predecessors] at hlen
  obtain ⟨w, hw⟩ := List.length_eq_one_iff.1 hlen
  simp only [hw, List.head?_cons, Option.getD_some]

/-- **A merge renames the block that goes and puts operands in the place of its phis.** -/
theorem Mergeable.rewired {n : Block} (hmerge : Mergeable g id next n) (hg : Complete g)
    (h : InStep g) (hall : InlinedAll g n.phis g₁) (hjump : JumpDropped g₁ id g₂)
    {operand : ValueId → ValueId} (hops : ∀ v ∈ n.phis, (g.valueAt v).phiOperands = [operand v])
    (hapart : ∀ v ∈ n.phis, operand v ∉ n.phis) :
    Rewired g (g₂.absorb id next) (· ∉ n.phis) fun _ l => l.map fun e =>
      (if e.1 = next then id else e.1, if e.2 ∈ n.phis then operand e.2 else e.2) := by
  have h₁ := (hall.keeps h).inStep
  obtain ⟨hkeep, n', hmerge', -⟩ := hmerge.ready h hall hjump
  obtain ⟨-, hjumpBlock, hjumpOps, -⟩ := hjump.reads h₁
  obtain ⟨hallBlock, hallOps⟩ := hall.reads hops hapart
  have hstays : ∀ v b, ((g₂.absorb id next).valueAt v).phiBlock? = some b ↔
      (g.valueAt v).phiBlock? = some b ∧ v ∉ n.phis := by
    intro v b
    rw [valueAt_absorb, hjumpBlock, hallBlock]
    by_cases hv : v ∈ n.phis <;> simp [hv]
  refine ⟨hjump.filled_absorb h₁ hmerge' (hmerge.phis_eq_nil hall) (hall.filled hg.filled), hstays,
    fun v hv => ?_⟩
  obtain ⟨b, hb'⟩ := Option.isSome_iff_exists.1 hv
  obtain ⟨hb, hout⟩ := (hstays v b).1 hb'
  have hne : b ≠ next := by
    rintro rfl
    rw [← blockAt_of_block? hmerge.block?] at hout
    exact hout (h.filed.mem_phis.2 hb)
  refine incoming_map (fun p => if p = next then id else p)
    (fun w => if w ∈ n.phis then operand w else w) ?_ ?_
  · rw [sources_of_phiBlock? hb', sources_of_phiBlock? hb,
      blockAt_absorb hkeep.inStep hmerge'.hasBlock hmerge'.block? hmerge'.ne, if_neg hne]
    simp only [hkeep.predecessors]
  · rw [valueAt_absorb, hjumpOps, hallOps v hout]

/-! ### Cutting an edge -/

theorem Complete.rewired_unlink? (hg : Complete g) (h : InStep g) (hcut : g.unlink? s t = some g') :
    ∃ index, (g.blockAt t).predecessorIndex? s = some index ∧
      (g.blockAt t).predecessors[index]? = some s ∧
      Rewired g g' (fun _ => True) fun v l =>
        if v ∈ (g.blockAt t).phis then l.eraseIdx index else l := by
  obtain ⟨index, place, hcut', -, hblock, hops, -, -⟩ := h.unlink?_reads hcut
  refine ⟨index, hcut'.first, hcut'.source, (hg.unlink? h hcut).filled,
    fun v b => by rw [hblock, and_iff_left trivial], fun v hv => ?_⟩
  obtain ⟨b, hb'⟩ := Option.isSome_iff_exists.1 hv
  have hb := (hblock v).symm.trans hb'
  have hmem : v ∈ (g.blockAt t).phis ↔ b = t := by
    rw [h.filed.mem_phis, hb, Option.some.injEq]
  simp only [incoming, sources_of_phiBlock? hb', sources_of_phiBlock? hb, hops, hcut'.blockAt, hmem]
  split_ifs
  · exact zip_eraseIdx _ _ _
  · rfl

/-! ### Removing what is not reached -/

/-- What is left of a graph once some edges from blocks that are not reached were cut: what flows
in from reached blocks is as before. -/
structure CutOff (reached : List BlockId) (g g' : Graph) : Prop where
  inStep : InStep g'
  complete : Complete g'
  phiBlock? : ∀ v, (g'.valueAt v).phiBlock? = (g.valueAt v).phiBlock?
  incoming : ∀ v, (g'.incoming v).filter (fun e => e.1 ∈ reached) =
    (g.incoming v).filter fun e => e.1 ∈ reached

/-- **An edge that goes takes with it only what flowed in along it.** -/
theorem CutOff.unlink (hcut : CutOff reached g g') (hs : s ∉ reached) :
    CutOff reached g (g'.unlink s t) := by
  rw [Graph.unlink]
  cases hg : g'.unlink? s t with
  | none => exact hcut
  | some g'' =>
    obtain ⟨index, -, hsource, hrew⟩ := hcut.complete.rewired_unlink? hcut.inStep hg
    have hblock : ∀ v, (g''.valueAt v).phiBlock? = (g'.valueAt v).phiBlock? := fun v =>
      Option.ext fun b => (hrew.stays_iff v b).trans (and_iff_left trivial)
    refine ⟨hcut.inStep.unlink? hg, hcut.complete.unlink? hcut.inStep hg,
      fun v => (hblock v).trans (hcut.phiBlock? v), fun v => ?_⟩
    rw [Option.getD_some, ← hcut.incoming v]
    cases hv : (g''.valueAt v).phiBlock? with
    | none =>
      rw [incoming_of_phiBlock?_none hv, incoming_of_phiBlock?_none ((hblock v).symm.trans hv)]
    | some b =>
      rw [hrew.incoming v (Option.isSome_iff_exists.2 ⟨b, hv⟩)]
      split_ifs with hmem
      · have hb := hcut.inStep.filed.mem_phis.1 hmem
        refine filter_eraseIdx fun e he => ?_
        rw [Graph.incoming, List.getElem?_zip_eq_some, sources_of_phiBlock? hb, hsource] at he
        rw [← Option.some.inj he.1]
        exact decide_eq_false hs
      · rfl

theorem CutOff.unlinkInto (hcut : CutOff reached g g') (hb : b ∉ reached) :
    CutOff reached g (g'.unlinkInto reached b) := by
  refine foldl_preserves (P := CutOff reached g) (fun g' t _ hcut => ?_) hcut
  split_ifs
  · exact hcut.unlink hb
  · exact hcut

/-- **What flows in from reached blocks is as before when all others are cut off.** -/
theorem Complete.cutOff (hg : Complete g) (h : InStep g) (hdead : ∀ b ∈ dead, b ∉ reached) :
    CutOff reached g (dead.foldl (Graph.unlinkInto reached) g) :=
  foldl_preserves (P := CutOff reached g) (fun _ b hb hcut => hcut.unlinkInto (hdead b hb))
    ⟨h, hg, fun _ => rfl, fun _ => rfl⟩

/-- No phi of `g'` is new, and none reads anything else. -/
def NoNewPhi (g g' : Graph) : Prop :=
  ∀ v p, (g'.valueAt v).livePhi? = some p → (g.valueAt v).livePhi? = some p

theorem NoNewPhi.trans (h : NoNewPhi g g₁) (h' : NoNewPhi g₁ g') : NoNewPhi g g' :=
  fun v p hp => h v p (h' v p hp)

theorem noNewPhi_discardInstruction (i : InstId) : NoNewPhi g (g.discardInstruction i) := by
  intro v p hp
  cases hi : g.instruction? i with
  | none =>
    rw [discardInstruction, hi] at hp
    exact hp
  | some x =>
    rw [valueAt_discardInstruction hi, Value.livePhi?_dieIf] at hp
    split_ifs at hp
    exact hp

theorem noNewPhi_discardPhi (v : ValueId) : NoNewPhi g (g.discardPhi v) := by
  -- The value need not be a phi, or live.
  have hdies : ∀ g : Graph, NoNewPhi g (g.modifyValue v fun x => { x with live := false }) := by
    intro g u p hp
    rw [valueAt_modifyValue (Or.inl rfl)] at hp
    split_ifs at hp
    · cases hp
    · exact hp
  unfold discardPhi
  split
  · exact hdies g
  · next q _ =>
    intro u p hp
    have hu : u ≠ v := by
      rintro rfl
      rw [valueAt_modifyValue (Or.inl rfl), if_pos rfl] at hp
      cases hp
    have hp' := hdies _ u p hp
    rw [valueAt_modifyBlock, valueAt_dropPhiUses, Value.livePhi?_mapPhiUsers,
      valueAt_modifyValue (Or.inl rfl), if_neg hu] at hp'
    exact hp'

theorem noNewPhi_foldl {α : Type} {step : Graph → α → Graph} (hstep : ∀ g a, NoNewPhi g (step g a))
    (l : List α) : NoNewPhi g (l.foldl step g) :=
  foldl_preserves (P := NoNewPhi g) (fun g' a _ hkeep => hkeep.trans (hstep g' a)) fun _ _ hp => hp

theorem noNewPhi_discardBlock (b : BlockId) : NoNewPhi g (g.discardBlock b) := by
  unfold discardBlock
  split
  · exact fun _ _ hp => hp
  · next x _ =>
    have hinsts : NoNewPhi (g.dropBlock b) (x.instructions.foldl discardInstruction _) :=
      noNewPhi_foldl (fun _ => noNewPhi_discardInstruction) x.instructions
    exact hinsts.trans (noNewPhi_foldl (fun _ => noNewPhi_discardPhi) x.phis)

/-- **Blocks that go take their phis with them and leave the others as they are.** -/
theorem Filled.rewired_discardBlocks (hg : Filled g) (h : Filed g.blockAt g)
    (dead : List BlockId) :
    Rewired g (dead.foldl Graph.discardBlock g)
      (fun v => ∀ b, (g.valueAt v).phiBlock? = some b → b ∉ dead) fun _ l => l := by
  obtain ⟨hfiled, hblocks⟩ := h.discardBlocks (l := dead)
  have hphis : ∀ v b, ((dead.foldl Graph.discardBlock g).valueAt v).phiBlock? = some b ↔
      (g.valueAt v).phiBlock? = some b ∧ b ∉ dead := by
    intro v b
    rw [← hfiled.mem_phis, ← h.mem_phis, hblocks]
    by_cases hb : b ∈ dead
    · simp [hb, Block.empty]
    · simp [hb]
  have hops : ∀ v b, ((dead.foldl Graph.discardBlock g).valueAt v).phiBlock? = some b →
      ((dead.foldl Graph.discardBlock g).valueAt v).phiOperands = (g.valueAt v).phiOperands := by
    intro v b hb
    obtain ⟨p, hp, -⟩ := Value.phiBlock?_eq_some.1 hb
    rw [Value.phiOperands_of_livePhi? hp,
      Value.phiOperands_of_livePhi? (noNewPhi_foldl (fun _ => noNewPhi_discardBlock) dead v p hp)]
  refine ⟨fun b v hb => ?_, fun v b => ?_, fun v hv => ?_⟩
  · obtain ⟨hold, hstay⟩ := (hphis v b).1 hb
    rw [hops v b hb, hblocks, if_neg hstay]
    exact hg b v hold
  · rw [hphis]
    refine and_congr_right fun hb => ⟨fun hstay b' hb' => ?_, fun hstay => hstay b hb⟩
    rwa [Option.some.inj (hb'.symm.trans hb)]
  · obtain ⟨b, hb⟩ := Option.isSome_iff_exists.1 hv
    obtain ⟨hold, hstay⟩ := (hphis v b).1 hb
    rw [Graph.incoming, Graph.incoming, sources_of_phiBlock? hb, sources_of_phiBlock? hold,
      hblocks, if_neg hstay, hops v b hb]

/-- Once the others are cut off, a reached block has reached predecessors only. -/
theorem InStep.mem_reached_of_unlinkAll (h : InStep g) (reached : List BlockId) (hb : b ∈ reached) :
    ∀ p ∈ (((g.liveOutside reached).foldl (Graph.unlinkInto reached) g).blockAt b).predecessors,
      p ∈ reached := by
  intro p hp
  obtain ⟨hstep, hhas, hcount⟩ := h.unlinkAll reached (g.liveOutside reached)
  have hleads := List.count_pos_iff.2 hp
  rw [← hstep.mirrored p b] at hleads
  by_contra hpr
  have hlive : g.HasBlock p :=
    (hhas p).1 (hasBlock_of_mem (f := (·.successors)) rfl (List.count_pos_iff.1 hleads))
  rw [hcount, if_pos ⟨mem_liveOutside.2 ⟨hlive, hpr⟩, hb⟩] at hleads
  exact absurd hleads (Nat.lt_irrefl 0)

/-- **A complete graph keeps what flows in from what the entry leads to.** -/
theorem Complete.rewired_removeUnreachable (hg : Complete g) (h : InStep g) {entry : BlockId}
    (hentry : entry? g = some entry) :
    Rewired g g.removeUnreachable.1
      (fun v => ∃ b ∈ g.reachableFrom entry, (g.valueAt v).phiBlock? = some b)
      fun _ l => l.filter fun e => e.1 ∈ g.reachableFrom entry := by
  unfold Graph.removeUnreachable
  rw [hentry]
  show Rewired g ((g.liveOutside (g.reachableFrom entry)).foldl Graph.discardBlock _) _ _
  set reached := g.reachableFrom entry
  have hcut : CutOff reached g ((g.liveOutside reached).foldl (Graph.unlinkInto reached) g) :=
    hg.cutOff h fun b hb => (mem_liveOutside.1 hb).2
  have hpreds := fun b hb => h.mem_reached_of_unlinkAll reached (b := b) hb
  generalize (g.liveOutside reached).foldl (Graph.unlinkInto reached) g = g₁ at *
  have hrew := hcut.complete.filled.rewired_discardBlocks hcut.inStep.filed (g.liveOutside reached)
  have hlive : ∀ v b, (g.valueAt v).phiBlock? = some b →
      (b ∉ g.liveOutside reached ↔ b ∈ reached) := by
    intro v b hb
    have hhas : g.HasBlock b := hasBlock_of_mem (f := (·.phis)) rfl (h.filed.mem_phis.2 hb)
    rw [mem_liveOutside, and_iff_right hhas, not_not]
  refine ⟨hrew.filled, fun v b => ?_, fun v hv => ?_⟩
  · rw [hrew.stays_iff, hcut.phiBlock?]
    refine and_congr_right fun hb => ⟨fun hstay => ?_, ?_⟩
    · exact ⟨b, (hlive v b hb).1 (hstay b hb), hb⟩
    · rintro ⟨b', hbr, hb'⟩ c hc
      obtain rfl := Option.some.inj (hb'.symm.trans hc)
      exact (hlive v b' hb').2 hbr
  · obtain ⟨b, hb⟩ := Option.isSome_iff_exists.1 hv
    obtain ⟨hb₁, hstay⟩ := (hrew.stays_iff v b).1 hb
    have hbr := (hlive v b (hcut.phiBlock? v ▸ hb₁)).1 (hstay b hb₁)
    rw [hrew.incoming v hv, ← hcut.incoming v]
    refine (List.filter_eq_self.2 fun e he => decide_eq_true (hpreds b hbr e.1 ?_)).symm
    rw [Graph.incoming, sources_of_phiBlock? hb₁] at he
    exact (List.of_mem_zip he).1

/-! ### Every edit that reshapes a graph -/

/-- **What flows into the phis of a graph that passes its check, and what the edits make of it.**  A
split renames the block to the new one.  A merge renames the successor and puts their operands in
the place of its phis, if these do not read each other.  An edge that is removed takes with it what
flowed in at the first place of its source, and blocks that are removed take what flowed in from
them. -/
theorem edits_rewire_phis (h : Reachable g) (hok : g.verify = .ok ()) :
    (∀ b index t, ((split b index).on g).1 = .ok t →
      Rewired g ((split b index).on g).2 (fun _ => True) fun _ l =>
        l.map fun e => (if e.1 = b then t else e.1, e.2)) ∧
    (∀ b s, ((merge b).on g).1 = .ok s →
      (∀ v ∈ (g.blockAt s).phis, ∀ w ∈ (g.valueAt v).phiOperands, w ∉ (g.blockAt s).phis) →
      ∃ operand : ValueId → ValueId,
        (∀ v ∈ (g.blockAt s).phis, (g.valueAt v).phiOperands = [operand v]) ∧
        Rewired g ((merge b).on g).2 (· ∉ (g.blockAt s).phis) fun _ l => l.map fun e =>
          (if e.1 = s then b else e.1, if e.2 ∈ (g.blockAt s).phis then operand e.2 else e.2)) ∧
    (∀ s t, ((removeEdge s t).on g).1 = .ok () →
      ∃ index, (g.blockAt t).predecessorIndex? s = some index ∧
        Rewired g ((removeEdge s t).on g).2 (fun _ => True) fun v l =>
          if v ∈ (g.blockAt t).phis then l.eraseIdx index else l) ∧
    ∀ entry, entry? g = some entry →
      ∃ reached : List BlockId, (∀ c, c ∈ reached ↔ Relation.ReflTransGen g.Leads entry c) ∧
        Rewired g g.removeUnreachable.1
          (fun v => ∃ b ∈ reached, (g.valueAt v).phiBlock? = some b) fun _ l =>
            l.filter fun e => e.1 ∈ reached := by
  have hstep := h.inStep
  have hg := hstep.verify_eq_ok.1 hok
  refine ⟨fun b index t ht => ?_, fun b s hs hapart => ?_, fun s t hcut => ?_,
    fun entry hentry => ?_⟩
  · rcases split_outcome g b index with ⟨err, herr⟩ | ⟨x, hx, -, hon⟩
    · rw [herr] at ht
      cases ht
    · rw [hon] at ht ⊢
      obtain rfl := Except.ok.inj ht
      exact hg.rewired_splitAt hstep hx index
  · obtain ⟨n, g₁, g₂, hmerge, hall, hjump, hon⟩ := hstep.merge_ok hs
    obtain ⟨operand, hops⟩ := hmerge.exists_operand hg hstep
    rw [blockAt_of_block? hmerge.block?] at hapart ⊢
    rw [hon]
    refine ⟨operand, hops, hmerge.rewired hg hstep hall hjump hops fun v hv => ?_⟩
    exact hapart v hv (operand v) (by rw [hops v hv]; exact List.mem_singleton_self _)
  · rcases removeEdge_outcome g s t with ⟨err, herr⟩ | ⟨g', hg', hon⟩
    · rw [herr] at hcut
      cases hcut
    · obtain ⟨index, hindex, -, hrew⟩ := hg.rewired_unlink? hstep hg'
      rw [hon]
      exact ⟨index, hindex, hrew⟩
  · exact ⟨g.reachableFrom entry, fun c => hstep.mem_reachableFrom (hasBlock_entry hentry),
      hg.rewired_removeUnreachable hstep hentry⟩

/-- A phi that is entered by two edges from the entry, by one from a block that is not reached, and
by one from a block with another phi, which reads the first. -/
def fourWaysIn : Graph :=
  afterAll [.addBlock, .addBlock, .addBlock, .addBlock, .addEdge ⟨0⟩ ⟨1⟩, .addEdge ⟨0⟩ ⟨1⟩,
    .addEdge ⟨3⟩ ⟨1⟩, .addEdge ⟨2⟩ ⟨1⟩, .addEdge ⟨1⟩ ⟨2⟩,
    .addInstruction ⟨0⟩ (.number 1) [] (some (.prim .int)),
    .addInstruction ⟨0⟩ (.number 2) [] (some (.prim .int)),
    .addInstruction ⟨3⟩ (.number 3) [] (some (.prim .int)),
    .addPhi ⟨1⟩ (.prim .int), .addPhi ⟨2⟩ (.prim .int),
    .appendOperand ⟨3⟩ ⟨0⟩, .appendOperand ⟨3⟩ ⟨1⟩, .appendOperand ⟨3⟩ ⟨2⟩, .appendOperand ⟨3⟩ ⟨4⟩,
    .appendOperand ⟨4⟩ ⟨3⟩] (Graph.empty none)

set_option maxRecDepth 4000 in
theorem edits_rewire_phis_fourWaysIn :
    Reachable fourWaysIn ∧ fourWaysIn.verify = .ok () ∧
      fourWaysIn.incoming ⟨3⟩ = [(⟨0⟩, ⟨0⟩), (⟨0⟩, ⟨1⟩), (⟨3⟩, ⟨2⟩), (⟨2⟩, ⟨4⟩)] ∧
      ((split ⟨0⟩ 1).on fourWaysIn).2.incoming ⟨3⟩ =
        [(⟨4⟩, ⟨0⟩), (⟨4⟩, ⟨1⟩), (⟨3⟩, ⟨2⟩), (⟨2⟩, ⟨4⟩)] ∧
      ((merge ⟨1⟩).on fourWaysIn).2.incoming ⟨3⟩ =
        [(⟨0⟩, ⟨0⟩), (⟨0⟩, ⟨1⟩), (⟨3⟩, ⟨2⟩), (⟨1⟩, ⟨3⟩)] ∧
      ((removeEdge ⟨0⟩ ⟨1⟩).on fourWaysIn).2.incoming ⟨3⟩ =
        [(⟨0⟩, ⟨1⟩), (⟨3⟩, ⟨2⟩), (⟨2⟩, ⟨4⟩)] ∧
      ∃ reached : List BlockId,
        (∀ c, c ∈ reached ↔ Relation.ReflTransGen fourWaysIn.Leads ⟨0⟩ c) ∧
        fourWaysIn.removeUnreachable.1.incoming ⟨3⟩ =
          (fourWaysIn.incoming ⟨3⟩).filter fun e => e.1 ∈ reached := by
  have hreach : Reachable fourWaysIn := Reachable.afterAll (.empty none) _
  obtain ⟨hsplit, hmerge, hremove, hunreachable⟩ := edits_rewire_phis hreach rfl
  obtain ⟨operand, hoperand, hmerged⟩ := hmerge ⟨1⟩ ⟨2⟩ rfl (by decide)
  obtain ⟨index, hindex, hremoved⟩ := hremove ⟨0⟩ ⟨1⟩ rfl
  obtain ⟨reached, hreached, hpruned⟩ := hunreachable ⟨0⟩ rfl
  obtain rfl : 0 = index := Option.some.inj hindex
  have hfour : [⟨3⟩] = [operand ⟨4⟩] := hoperand ⟨4⟩ (by decide)
  refine ⟨hreach, rfl, by decide, (hsplit ⟨0⟩ 1 ⟨4⟩ rfl).incoming ⟨3⟩ (by decide), ?_,
    hremoved.incoming ⟨3⟩ (by decide), reached, hreached, hpruned.incoming ⟨3⟩ (by decide)⟩
  refine (hmerged.incoming ⟨3⟩ (by decide)).trans ?_
  show ([_, _, _, (⟨1⟩, operand ⟨4⟩)] : List (BlockId × ValueId)) = _
  rw [← (List.cons.inj hfour).1]
  rfl

end Graph
end IrAnalysis
