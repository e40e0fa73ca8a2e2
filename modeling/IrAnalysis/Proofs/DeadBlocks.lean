/-
# What is left when dead blocks go

Removing the blocks to which the entry does not lead goes in two stages.  First the edges from dead
blocks into reached ones are cut, each as often as it is there; the phis of the reached
blocks lose what flowed in along them (`EdgesCut`).  Then the dead blocks are removed with
all that lies in them, and nothing of the reached blocks is touched.  What is left is the reached
part of the graph (`Pruned`).

A value goes with the block in which it is defined.  If a reached block reads it the graph no longer
passes its check, and otherwise it does: of what is left only operands are in question, as
the lists are in step and the phis have an operand for each predecessor that is left.
-/

import IrAnalysis.Proofs.Incoming
import IrAnalysis.Proofs.Traces

namespace IrAnalysis

@[simp] theorem Value.type_mapOperands {f : List ValueId → List ValueId} {x : Value} :
    (x.mapOperands f).type = x.type := by
  unfold mapOperands
  split <;> rfl

namespace Graph

variable {g g' : Graph} {b c p s t entry : BlockId} {v w : ValueId} {i j : InstId}
  {x : Instruction} {reached dead : List BlockId}

/-! ### Where a value is defined -/

/-- **The value is defined in the block**, by a phi or as the output of an instruction. -/
inductive DefinedIn (g : Graph) (w : ValueId) (b : BlockId) : Prop
  | phi : (g.valueAt w).phiBlock? = some b → DefinedIn g w b
  | output {i : InstId} {x : Instruction} : g.instruction? i = some x → x.output = some w →
      x.block = b → DefinedIn g w b

theorem InStep.exists_definedIn (h : InStep g) (hw : (g.valueAt w).live = true) :
    ∃ b, g.DefinedIn w b := by
  cases hdef : (g.valueAt w).definition with
  | phi p =>
    have hp : (g.valueAt w).livePhi? = some p := Value.livePhi?_eq_some.2 ⟨hw, hdef⟩
    exact ⟨p.block, .phi (Value.phiBlock?_eq_some.2 ⟨p, hp, rfl⟩)⟩
  | instruction i =>
    have hi : (g.valueAt w).definer? = some i := Value.definer?_eq_some.2 ⟨hw, hdef⟩
    obtain ⟨x, hx, hout⟩ := Option.bind_eq_some_iff.1 ((h.filed.outputs i w).2 hi)
    exact ⟨x.block, .output hx hout rfl⟩

theorem InStep.live_of_definedIn (h : InStep g) (hw : g.DefinedIn w b) :
    (g.valueAt w).live = true := by
  cases hw with
  | phi hb =>
    obtain ⟨p, hp, -⟩ := Value.phiBlock?_eq_some.1 hb
    exact (Value.livePhi?_eq_some.1 hp).1
  | @output i x hx hout _ =>
    have hi := (h.filed.outputs i w).1 (by rw [hx]; exact hout)
    exact (Value.definer?_eq_some.1 hi).1

/-- A value is defined once. -/
theorem InStep.definedIn_unique (h : InStep g) (hb : g.DefinedIn w b) (hc : g.DefinedIn w c) :
    b = c := by
  have hphi : ∀ {i x}, g.instruction? i = some x → x.output = some w →
      (g.valueAt w).definer? = some i := fun hx hout =>
    (h.filed.outputs _ w).1 (by rw [hx]; exact hout)
  cases hb with
  | phi hb =>
    cases hc with
    | phi hc => exact Option.some.inj (hb.symm.trans hc)
    | output hx hout _ =>
      rw [Value.phiBlock?_of_definer? (hphi hx hout)] at hb
      exact absurd hb (by simp)
  | output hx hout hxb =>
    cases hc with
    | phi hc =>
      rw [Value.phiBlock?_of_definer? (hphi hx hout)] at hc
      exact absurd hc (by simp)
    | output hy hout' hyc =>
      obtain rfl := Option.some.inj ((hphi hx hout).symm.trans (hphi hy hout'))
      obtain rfl := Option.some.inj (hx.symm.trans hy)
      exact hxb.symm.trans hyc

/-! ### Types -/

theorem typeAt_modifyValue {f : Value → Value} (hf : ∀ x, (f x).type = x.type) :
    (g.modifyValue w f).typeAt v = g.typeAt v := by
  unfold typeAt
  rw [slot?_modifyValue]
  split_ifs
  · cases g.slot? v with
    | none => rfl
    | some x => simp [hf]
  · rfl

theorem typeAt_mapOperands {f : List ValueId → List ValueId} :
    (g.modifyValue w (·.mapOperands f)).typeAt v = g.typeAt v :=
  typeAt_modifyValue fun _ => Value.type_mapOperands

theorem typeAt_dies : (g.modifyValue w fun x => { x with live := false }).typeAt v = g.typeAt v :=
  typeAt_modifyValue fun _ => rfl

theorem typeAt_dropUse : (dropUse i g w).typeAt v = g.typeAt v := typeAt_modifyValue fun _ => rfl

theorem typeAt_dropPhiUse {phi : ValueId} : (dropPhiUse phi g w).typeAt v = g.typeAt v :=
  typeAt_modifyValue fun _ => rfl

theorem typeAt_dropOperand {index : Nat} {phi : ValueId} :
    (dropOperand index g phi).typeAt v = g.typeAt v := by
  unfold dropOperand
  split
  · rfl
  · rw [typeAt_dropPhiUse, typeAt_mapOperands]

theorem typeAt_discardInstruction : (g.discardInstruction i).typeAt v = g.typeAt v := by
  unfold discardInstruction
  split
  · rfl
  · refine (foldl_keeps (·.typeAt v) fun _ _ => typeAt_dies).trans ?_
    exact (foldl_keeps (·.typeAt v) fun _ _ => typeAt_dropUse).trans rfl

theorem typeAt_discardPhi : (g.discardPhi w).typeAt v = g.typeAt v := by
  unfold discardPhi
  split
  · exact typeAt_dies
  · refine typeAt_dies.trans ?_
    exact (foldl_keeps (·.typeAt v) fun _ _ => typeAt_dropPhiUse).trans typeAt_mapOperands

theorem typeAt_discardBlock : (g.discardBlock b).typeAt v = g.typeAt v := by
  unfold discardBlock
  split
  · rfl
  · refine (foldl_keeps (·.typeAt v) fun _ _ => typeAt_discardPhi).trans ?_
    exact (foldl_keeps (·.typeAt v) fun _ _ => typeAt_discardInstruction).trans rfl

/-! ### Cutting the edges into reached blocks -/

/-- **Only edges out of blocks that are not reached were cut.**  Blocks list the same phis and
instructions, values are defined where they were, and what a reached block leads to is the same. -/
structure EdgesCut (reached : List BlockId) (g g' : Graph) : Prop where
  inStep : InStep g'
  phis : ∀ b, (g'.blockAt b).phis = (g.blockAt b).phis
  instructions : ∀ b, (g'.blockAt b).instructions = (g.blockAt b).instructions
  successors : ∀ b ∈ reached, (g'.blockAt b).successors = (g.blockAt b).successors
  hasBlock : ∀ b, g'.HasBlock b ↔ g.HasBlock b
  instruction? : ∀ i, g'.instruction? i = g.instruction? i
  typeAt : ∀ v, g'.typeAt v = g.typeAt v

theorem EdgesCut.unlink (hcut : EdgesCut reached g g') (hs : s ∉ reached) :
    EdgesCut reached g (g'.unlink s t) := by
  rw [Graph.unlink]
  cases hg : g'.unlink? s t with
  | none => exact hcut
  | some g'' =>
    obtain ⟨index, place, hone, -, -, -, -, hinst⟩ := hcut.inStep.unlink?_reads hg
    obtain ⟨index', place', -, heq⟩ := unlink?_eq_some hg
    refine ⟨hcut.inStep.unlink? hg, fun b => ?_, fun b => ?_, fun b hb => ?_, fun b => ?_,
      fun j => (hinst j).trans (hcut.instruction? j), fun v => ?_⟩
    · rw [Option.getD_some, hone.blockAt, hcut.phis]
    · rw [Option.getD_some, hone.blockAt, hcut.instructions]
    · have hne : b ≠ s := fun he => hs (he ▸ hb)
      rw [Option.getD_some, hone.blockAt, if_neg hne, hcut.successors b hb]
    · exact (hone.hasBlock b).trans (hcut.hasBlock b)
    · rw [Option.getD_some, heq, ← hcut.typeAt v]
      exact foldl_keeps (·.typeAt v) fun _ _ => typeAt_dropOperand

theorem EdgesCut.unlinkInto (hcut : EdgesCut reached g g') (hb : b ∉ reached) :
    EdgesCut reached g (g'.unlinkInto reached b) := by
  refine foldl_preserves (P := EdgesCut reached g) (fun g' t _ hcut => ?_) hcut
  split_ifs
  · exact hcut.unlink hb
  · exact hcut

theorem InStep.edgesCut (h : InStep g) (hdead : ∀ b ∈ dead, b ∉ reached) :
    EdgesCut reached g (dead.foldl (Graph.unlinkInto reached) g) :=
  foldl_preserves (P := EdgesCut reached g) (fun _ b hb hcut => hcut.unlinkInto (hdead b hb))
    ⟨h, fun _ => rfl, fun _ => rfl, fun _ _ => rfl, fun _ => Iff.rfl, fun _ => rfl, fun _ => rfl⟩

/-! ### Removing blocks -/

/-- No instruction of `g'` is new, and none does anything else. -/
def NoNewInstruction (g g' : Graph) : Prop :=
  ∀ i x, g'.instruction? i = some x → g.instruction? i = some x

theorem noNewInstruction_foldl {α : Type} {step : Graph → α → Graph}
    (hstep : ∀ g a, NoNewInstruction g (step g a)) (l : List α) :
    NoNewInstruction g (l.foldl step g) :=
  foldl_preserves (P := NoNewInstruction g)
    (fun g' a _ hkeep i x hi => hkeep i x (hstep g' a i x hi)) fun _ _ hi => hi

theorem noNewInstruction_discardInstruction (i : InstId) :
    NoNewInstruction g (g.discardInstruction i) := by
  intro j x hj
  rw [instruction?_discardInstruction] at hj
  split_ifs at hj
  exact hj

theorem noNewInstruction_discardBlock (b : BlockId) : NoNewInstruction g (g.discardBlock b) := by
  unfold discardBlock
  split
  · exact fun _ _ hi => hi
  · next y _ =>
    intro j x hj
    have hphis : (y.phis.foldl discardPhi (y.instructions.foldl discardInstruction
        (g.dropBlock b))).instructions =
          (y.instructions.foldl discardInstruction (g.dropBlock b)).instructions :=
      foldl_keeps (·.instructions) fun _ _ => instructions_discardPhi
    rw [instruction?_congr hphis] at hj
    exact noNewInstruction_foldl (g := g.dropBlock b)
      (fun _ => noNewInstruction_discardInstruction) y.instructions j x hj

theorem hasBlock_discardBlock : (g.discardBlock b).HasBlock c ↔ c ≠ b ∧ g.HasBlock c := by
  unfold discardBlock
  split
  · next hb =>
    refine ⟨fun hc => ⟨?_, hc⟩, And.right⟩
    rintro rfl
    rw [HasBlock, hb] at hc
    exact absurd hc (by simp)
  · next y _ =>
    have hphis : (y.phis.foldl discardPhi (y.instructions.foldl discardInstruction
        (g.dropBlock b))).HasBlock c =
          (y.instructions.foldl discardInstruction (g.dropBlock b)).HasBlock c :=
      foldl_keeps (·.HasBlock c) fun _ _ => propext hasBlock_discardPhi
    have hinsts : (y.instructions.foldl discardInstruction (g.dropBlock b)).blocks =
        (g.dropBlock b).blocks := foldl_keeps (·.blocks) fun _ _ => blocks_discardInstruction
    rw [hphis, hasBlock_congr hinsts, HasBlock, block?_dropBlock]
    split_ifs with hc
    · simp [hc]
    · simp [hc, HasBlock]

theorem hasBlock_discardBlocks :
    (dead.foldl discardBlock g).HasBlock c ↔ c ∉ dead ∧ g.HasBlock c := by
  induction dead generalizing g with
  | nil => simp
  | cons b dead ih => rw [List.foldl_cons, ih, hasBlock_discardBlock, List.mem_cons, not_or]; tauto

/-- An instruction stays if its block does. -/
theorem Filed.instruction?_discardBlocks (h : Filed g.blockAt g) :
    (dead.foldl Graph.discardBlock g).instruction? i = some x ↔
      g.instruction? i = some x ∧ x.block ∉ dead := by
  obtain ⟨hfiled, hblocks⟩ := h.discardBlocks (l := dead)
  have hlisted : ((dead.foldl Graph.discardBlock g).instruction? i).map (·.block) = some x.block ↔
      (g.instruction? i).map (·.block) = some x.block ∧ x.block ∉ dead := by
    rw [← hfiled.mem_instructions, ← h.mem_instructions, hblocks]
    by_cases hb : x.block ∈ dead
    · simp [hb, Block.empty]
    · simp [hb]
  have hold : NoNewInstruction g (dead.foldl Graph.discardBlock g) :=
    noNewInstruction_foldl (fun _ => noNewInstruction_discardBlock) dead
  constructor
  · intro hi
    exact ⟨hold i x hi, (hlisted.1 (by rw [hi]; rfl)).2⟩
  · rintro ⟨hi, hb⟩
    obtain ⟨y, hy, -⟩ := Option.map_eq_some_iff.1 (hlisted.2 ⟨by rw [hi]; rfl, hb⟩)
    exact hy.trans ((hold i y hy).symm.trans hi)

/-! ### What is left -/

/-- **What is left is the part of the graph that lies in kept blocks**, as it was. -/
structure Pruned (g g' : Graph) (kept : BlockId → Prop) : Prop where
  hasBlock : ∀ b, g'.HasBlock b ↔ kept b
  phis : ∀ b, kept b → (g'.blockAt b).phis = (g.blockAt b).phis
  instructions : ∀ b, kept b → (g'.blockAt b).instructions = (g.blockAt b).instructions
  successors : ∀ b, kept b → (g'.blockAt b).successors = (g.blockAt b).successors
  instruction? : ∀ i x, g'.instruction? i = some x ↔ g.instruction? i = some x ∧ kept x.block
  phiBlock? : ∀ v b, (g'.valueAt v).phiBlock? = some b ↔
    (g.valueAt v).phiBlock? = some b ∧ kept b
  typeAt : ∀ v, g'.typeAt v = g.typeAt v

/-- What is reached from a live block is live. -/
theorem InStep.hasBlock_of_reached (h : InStep g) (hb : g.HasBlock b)
    (hbc : Relation.ReflTransGen g.Leads b c) : g.HasBlock c := by
  cases hbc with
  | refl => exact hb
  | tail _ hlast => exact h.hasBlock_of_leads hlast

theorem InStep.pruned (h : InStep g) (hentry : entry? g = some entry) :
    Pruned g g.removeUnreachable.1 (Relation.ReflTransGen g.Leads entry) := by
  have hlive := hasBlock_entry hentry
  have hkept : Relation.ReflTransGen g.Leads entry = (· ∈ g.reachableFrom entry) :=
    funext fun b => propext (h.mem_reachableFrom hlive).symm
  have hreached : ∀ b ∈ g.reachableFrom entry, g.HasBlock b := fun b hb =>
    h.hasBlock_of_reached hlive ((h.mem_reachableFrom hlive).1 hb)
  rw [hkept]
  unfold Graph.removeUnreachable
  rw [hentry]
  show Pruned g ((g.liveOutside (g.reachableFrom entry)).foldl Graph.discardBlock _) _
  generalize g.reachableFrom entry = reached at hreached ⊢
  have hstays : ∀ b, g.HasBlock b → (b ∉ g.liveOutside reached ↔ b ∈ reached) := by
    intro b hb
    rw [mem_liveOutside, and_iff_right hb, not_not]
  have hcut : EdgesCut reached g ((g.liveOutside reached).foldl (Graph.unlinkInto reached) g) :=
    h.edgesCut fun b hb => (mem_liveOutside.1 hb).2
  generalize hdead : g.liveOutside reached = dead at hstays hcut ⊢
  generalize dead.foldl (Graph.unlinkInto reached) g = g₁ at hcut ⊢
  -- From here on the cut graph stands for itself; only what was cut matters.
  obtain ⟨hfiled, hblocks⟩ := hcut.inStep.filed.discardBlocks (l := dead)
  have hsame : ∀ b ∈ reached, (dead.foldl Graph.discardBlock g₁).blockAt b = g₁.blockAt b := by
    intro b hb
    rw [hblocks, if_neg ((hstays b (hreached b hb)).2 hb)]
  refine ⟨fun b => ?_, fun b hb => ?_, fun b hb => ?_, fun b hb => ?_, fun i x => ?_,
    fun v b => ?_, fun v => ?_⟩
  · rw [hasBlock_discardBlocks, hcut.hasBlock]
    exact ⟨fun hb => (hstays b hb.2).1 hb.1, fun hb =>
      ⟨(hstays b (hreached b hb)).2 hb, hreached b hb⟩⟩
  · rw [hsame b hb, hcut.phis]
  · rw [hsame b hb, hcut.instructions]
  · rw [hsame b hb, hcut.successors b hb]
  · rw [hcut.inStep.filed.instruction?_discardBlocks, hcut.instruction?]
    refine and_congr_right fun hi => hstays x.block ?_
    refine hasBlock_of_mem (f := (·.instructions)) (a := i) rfl (h.filed.mem_instructions.2 ?_)
    rw [hi]
    rfl
  · rw [← hfiled.mem_phis, ← h.filed.mem_phis, hblocks, ← hcut.phis]
    by_cases hb : g.HasBlock b
    · rw [← hstays b hb]
      by_cases hd : b ∈ dead <;> simp [hd, Block.empty]
    · have hb₁ : ¬ g₁.HasBlock b := mt (hcut.hasBlock b).1 hb
      rw [blockAt_of_not_hasBlock hb₁, ite_self]
      simp [Block.empty]
  · rw [← hcut.typeAt v]
    exact foldl_keeps (·.typeAt v) fun _ _ => typeAt_discardBlock

section

variable {kept : BlockId → Prop}

/-- A value stays if the block in which it is defined does. -/
theorem Pruned.definedIn (hg : Pruned g g' kept) :
    g'.DefinedIn w b ↔ g.DefinedIn w b ∧ kept b := by
  constructor
  · intro hw
    cases hw with
    | phi hb =>
      obtain ⟨hb, hkept⟩ := (hg.phiBlock? w b).1 hb
      exact ⟨.phi hb, hkept⟩
    | output hi hout hxb =>
      obtain ⟨hi, hkept⟩ := (hg.instruction? _ _).1 hi
      exact ⟨.output hi hout hxb, hxb ▸ hkept⟩
  · rintro ⟨hw, hkept⟩
    cases hw with
    | phi hb => exact .phi ((hg.phiBlock? w b).2 ⟨hb, hkept⟩)
    | output hi hout hxb =>
      exact .output ((hg.instruction? _ _).2 ⟨hi, hxb.symm ▸ hkept⟩) hout hxb

/-- A read value is live afterwards if it is defined in a block that stays. -/
theorem Pruned.live_iff (hg : Pruned g g' kept) (h : InStep g) (h' : InStep g')
    (hw : (g.valueAt w).live = true) :
    (g'.valueAt w).live = true ↔ ∀ b, g.DefinedIn w b → kept b := by
  constructor
  · intro hw' b hb
    obtain ⟨c, hc⟩ := h'.exists_definedIn hw'
    obtain ⟨hc, hkept⟩ := hg.definedIn.1 hc
    exact h.definedIn_unique hb hc ▸ hkept
  · intro hkept
    obtain ⟨b, hb⟩ := h.exists_definedIn hw
    exact h'.live_of_definedIn (hg.definedIn.2 ⟨hb, hkept b hb⟩)

end

/-! ### What was removed -/

theorem liveBlocks_pairwise (g : Graph) :
    (g.liveBlocks.map (·.1)).Pairwise (·.index < ·.index) := by
  have hplaces : (g.blocks.zipIdx.map Prod.snd).Pairwise (· < ·) := by
    rw [List.zipIdx_map_snd]
    exact List.pairwise_lt_range'
  rw [List.pairwise_map] at hplaces ⊢
  refine List.pairwise_filterMap.2 (hplaces.imp ?_)
  rintro ⟨x, m⟩ ⟨y, n⟩ hmn b hb c hc
  obtain ⟨_, -, rfl⟩ := Option.map_eq_some_iff.1 hb
  obtain ⟨_, -, rfl⟩ := Option.map_eq_some_iff.1 hc
  exact hmn

theorem removeUnreachable_snd (hentry : entry? g = some entry) :
    g.removeUnreachable.2 = g.liveOutside (g.reachableFrom entry) := by
  unfold Graph.removeUnreachable
  rw [hentry]

/-- What is left leads to the same blocks. -/
theorem Pruned.reached_iff (hg : Pruned g g' (Relation.ReflTransGen g.Leads entry)) :
    Relation.ReflTransGen g'.Leads entry b ↔ Relation.ReflTransGen g.Leads entry b := by
  constructor
  · intro hb
    induction hb with
    | refl => exact .refl
    | tail _ hlast ih => exact ih.tail (by rwa [Leads, ← hg.successors _ ih])
  · intro hb
    induction hb with
    | refl => exact .refl
    | tail hfirst hlast ih => exact ih.tail (by rwa [Leads, hg.successors _ hfirst])

/-- **Nothing is left to remove.** -/
theorem Pruned.removeUnreachable_eq (hg : Pruned g g' (Relation.ReflTransGen g.Leads entry))
    (h' : InStep g') (hentry : entry? g = some entry) : g'.removeUnreachable = (g', []) := by
  obtain ⟨rfl, -⟩ := entry?_eq_some.1 hentry
  have hlive : g'.HasBlock ⟨0⟩ := (hg.hasBlock _).2 .refl
  have hnone : g'.liveOutside (g'.reachableFrom ⟨0⟩) = [] := by
    refine List.eq_nil_iff_forall_not_mem.2 fun b hb => ?_
    obtain ⟨hb, hout⟩ := mem_liveOutside.1 hb
    rw [h'.mem_reachableFrom hlive, hg.reached_iff, ← hg.hasBlock] at hout
    exact hout hb
  unfold Graph.removeUnreachable
  rw [ entry?_eq_some.2 ⟨rfl, hlive⟩]
  simp only [hnone, List.foldl_nil]

/-! ### What is read of what was removed -/

/-- **Kept blocks read what is defined in kept blocks**: their instructions do, and so do phis of
what flows in from them. -/
structure ReadsKept (g : Graph) (kept : BlockId → Prop) : Prop where
  instructions : ∀ i x w b, g.instruction? i = some x → kept x.block → w ∈ x.operands →
    g.DefinedIn w b → kept b
  phis : ∀ v p w b, (p, w) ∈ g.incoming v → kept p → g.DefinedIn w b → kept b

/-- What flows into the phis of a filled graph is all that they read. -/
theorem Filled.mem_phiOperands (hg : Filled g) :
    w ∈ (g.valueAt v).phiOperands ↔ ∃ p, (p, w) ∈ g.incoming v := by
  cases hv : (g.valueAt v).phiBlock? with
  | none =>
    rw [Value.phiOperands_of_phiBlock?_none hv, incoming_of_phiBlock?_none hv]
    simp
  | some b =>
    have hall : (g.incoming v).map Prod.snd = (g.valueAt v).phiOperands := by
      rw [incoming, sources_of_phiBlock? hv]
      exact List.map_snd_zip (Nat.le_of_eq (hg b v hv))
    rw [← hall]
    simp

/-- A phi that is entered from a reached block is reached. -/
theorem InStep.reached_of_mem_incoming (h : InStep g)
    (hw : (p, w) ∈ g.incoming v) (hp : Relation.ReflTransGen g.Leads entry p) :
    ∃ b, (g.valueAt v).phiBlock? = some b ∧ Relation.ReflTransGen g.Leads entry b := by
  cases hv : (g.valueAt v).phiBlock? with
  | none =>
    rw [incoming_of_phiBlock?_none hv] at hw
    exact absurd hw List.not_mem_nil
  | some b =>
    rw [incoming, sources_of_phiBlock? hv] at hw
    have hpred := (List.of_mem_zip hw).1
    rw [← List.count_pos_iff, ← h.mirrored p b, List.count_pos_iff] at hpred
    exact ⟨b, rfl, hp.tail hpred⟩

/-- **What is left passes the check exactly if it reads nothing that was removed.** -/
theorem Complete.verify_removeUnreachable (hg : Complete g) (h : InStep g)
    (hentry : entry? g = some entry) : g.removeUnreachable.1.verify = .ok () ↔
      ReadsKept g (Relation.ReflTransGen g.Leads entry) := by
  have hpruned := h.pruned hentry
  have hrew := hg.rewired_removeUnreachable h hentry
  have h' := h.removeUnreachable
  have hlive := hasBlock_entry hentry
  generalize g.removeUnreachable.1 = g' at hpruned hrew h' ⊢
  -- The source decides whether a pair stays: a phi that is entered from a reached block is reached.
  have hincoming : ∀ v p w, (p, w) ∈ g'.incoming v ↔
      (p, w) ∈ g.incoming v ∧ Relation.ReflTransGen g.Leads entry p := by
    intro v p w
    rw [← h.mem_reachableFrom hlive]
    constructor
    · intro hw
      have hsome : (g'.valueAt v).phiBlock?.isSome := by
        by_contra hnone
        rw [Option.not_isSome_iff_eq_none] at hnone
        rw [incoming_of_phiBlock?_none hnone] at hw
        exact absurd hw List.not_mem_nil
      rw [hrew.incoming v hsome, List.mem_filter, decide_eq_true_iff] at hw
      exact hw
    · rintro ⟨hw, hp⟩
      obtain ⟨b, hv, hb⟩ := h.reached_of_mem_incoming hw ((h.mem_reachableFrom hlive).1 hp)
      have hsome : (g'.valueAt v).phiBlock?.isSome :=
        Option.isSome_iff_exists.2 ⟨b, (hpruned.phiBlock? v b).2 ⟨hv, hb⟩⟩
      rw [hrew.incoming v hsome, List.mem_filter, decide_eq_true_iff]
      exact ⟨hw, hp⟩
  rw [h'.verify_eq_ok, complete_iff, and_iff_right hrew.filled]
  constructor
  · intro hread
    refine ⟨fun i x w b hi hx hw hb => ?_, fun v p w b hw hp hb => ?_⟩
    · have hold := hg.operands i w (by rwa [operandsOf_of_instruction? hi])
      have hi' := (hpruned.instruction? i x).2 ⟨hi, hx⟩
      refine (hpruned.live_iff h h' hold).1 (hread w (Or.inl ⟨i, ?_⟩)) b hb
      rwa [operandsOf_of_instruction? hi']
    · have hold := hg.phiOperands v w (hg.filled.mem_phiOperands.2 ⟨p, hw⟩)
      refine (hpruned.live_iff h h' hold).1 (hread w (Or.inr ⟨v, ?_⟩)) b hb
      exact hrew.filled.mem_phiOperands.2 ⟨p, (hincoming v p w).2 ⟨hw, hp⟩⟩
  · rintro hkept w (⟨i, hw⟩ | ⟨v, hw⟩)
    · cases hi' : g'.instruction? i with
      | none => exact absurd hw (by simp [operandsOf, hi'])
      | some x =>
        rw [operandsOf_of_instruction? hi'] at hw
        obtain ⟨hi, hx⟩ := (hpruned.instruction? i x).1 hi'
        have hold := hg.operands i w (by rwa [operandsOf_of_instruction? hi])
        exact (hpruned.live_iff h h' hold).2 fun b => hkept.instructions i x w b hi hx hw
    · obtain ⟨p, hw⟩ := hrew.filled.mem_phiOperands.1 hw
      obtain ⟨hw, hp⟩ := (hincoming v p w).1 hw
      have hold := hg.phiOperands v w (hg.filled.mem_phiOperands.2 ⟨p, hw⟩)
      exact (hpruned.live_iff h h' hold).2 fun b => hkept.phis v p w b hw hp

/-- **Removing unreachable blocks.**  What is left of a graph that passes its check is the part that
the entry leads to; the other blocks are named in the order they were made; and nothing is left to
remove.  The graph passes its check afterwards exactly if no instruction that is left, and
no phi of what flows in from a block that is left, reads a value that was defined in a block that
went. -/
theorem removeUnreachable_prunes (h : Reachable g) (hok : g.verify = .ok ())
    (hentry : entry? g = some entry) :
    Pruned g g.removeUnreachable.1 (Relation.ReflTransGen g.Leads entry) ∧
      ((∀ b, b ∈ g.removeUnreachable.2 ↔
          g.HasBlock b ∧ ¬ Relation.ReflTransGen g.Leads entry b) ∧
        g.removeUnreachable.2.Pairwise (·.index < ·.index)) ∧
      g.removeUnreachable.1.removeUnreachable = (g.removeUnreachable.1, []) ∧
      (g.removeUnreachable.1.verify = .ok () ↔
        ReadsKept g (Relation.ReflTransGen g.Leads entry)) := by
  have hstep := h.inStep
  have hpruned := hstep.pruned hentry
  refine ⟨hpruned, ?_, hpruned.removeUnreachable_eq hstep.removeUnreachable hentry,
    (hstep.verify_eq_ok.1 hok).verify_removeUnreachable hstep hentry⟩
  rw [removeUnreachable_snd hentry]
  refine ⟨fun b => ?_, (liveBlocks_pairwise g).filter _⟩
  rw [mem_liveOutside, hstep.mem_reachableFrom (hasBlock_entry hentry)]

/-- Two dead blocks that lead to each other.  From one, two edges lead into a reached block, whose
phi reads what the dead block defines; in the other what the entry defines is read. -/
def deadCycle : Graph :=
  afterAll [.addBlock, .addBlock, .addBlock, .addBlock, .addEdge ⟨0⟩ ⟨1⟩, .addEdge ⟨2⟩ ⟨1⟩,
    .addEdge ⟨2⟩ ⟨1⟩, .addEdge ⟨2⟩ ⟨3⟩, .addEdge ⟨3⟩ ⟨2⟩,
    .addInstruction ⟨0⟩ (.number 1) [] (some (.prim .int)),
    .addInstruction ⟨2⟩ (.number 2) [] (some (.prim .int)),
    .addPhi ⟨1⟩ (.prim .int), .appendOperand ⟨2⟩ ⟨0⟩, .appendOperand ⟨2⟩ ⟨1⟩,
    .appendOperand ⟨2⟩ ⟨1⟩, .addInstruction ⟨1⟩ .ret [⟨2⟩] none, .addInstruction ⟨3⟩ .ret [⟨0⟩] none] (Graph.empty none)

set_option maxRecDepth 4000 in
theorem removeUnreachable_prunes_deadCycle :
    Reachable deadCycle ∧ deadCycle.verify = .ok () ∧ entry? deadCycle = some ⟨0⟩ ∧
      deadCycle.removeUnreachable.2 = [⟨2⟩, ⟨3⟩] ∧
      deadCycle.removeUnreachable.1.verify = .ok () ∧
      ReadsKept deadCycle (Relation.ReflTransGen deadCycle.Leads ⟨0⟩) ∧
      deadCycle.removeUnreachable.1.removeUnreachable = (deadCycle.removeUnreachable.1, []) := by
  have hreach : Reachable deadCycle := Reachable.afterAll (.empty none) _
  have hentry : entry? deadCycle = some ⟨0⟩ := rfl
  obtain ⟨-, -, hagain, hverify⟩ := removeUnreachable_prunes hreach rfl hentry
  have hok : deadCycle.removeUnreachable.1.verify = .ok () := rfl
  exact ⟨hreach, rfl, hentry, by decide, hok, hverify.1 hok, hagain⟩

/-- What a reached block reads of a block that goes is missing afterwards. -/
example : ((afterAll [.addBlock, .addBlock, .addInstruction ⟨1⟩ (.number 1) [] (some (.prim .int)),
      .addInstruction ⟨0⟩ .ret [⟨0⟩] none] (Graph.empty none)).removeUnreachable.1.verify) =
    .error (.missingValue ⟨0⟩) := by
  decide

end Graph
end IrAnalysis
