/-
# What a merge leaves to be read

A phi that gives way is replaced by its operand, and the operand may be another phi of the
same block that is still to give way.  Whoever read the first phi ends up reading what the chain of
operands leads to: a value from outside the block if the chain leaves it, and a removed phi
if the chain comes back to where it was.  `Grounded` says that the chain leaves the block, and
is not changed by a phi that gives way (`Inlined.grounded_iff`), so a merge leaves a complete
graph complete exactly if all that is read past it is grounded (`Mergeable.complete_iff`).
-/

import IrAnalysis.Proofs.Complete
import IrAnalysis.Proofs.Refusals

namespace IrAnalysis
namespace Graph

open Edit

variable {g g' : Graph} {b id next : BlockId} {v w u : ValueId} {i j : InstId} {vs : List ValueId}

/-- **The value comes from outside the block**: it is live and no phi of the block, or it is a
phi that is fed by such a value. -/
inductive Grounded (g : Graph) (b : BlockId) : ValueId → Prop
  | outside {w : ValueId} : (g.valueAt w).live = true → w ∉ (g.blockAt b).phis → Grounded g b w
  | through {v w : ValueId} : v ∈ (g.blockAt b).phis → w ∈ (g.valueAt v).phiOperands →
      Grounded g b w → Grounded g b v

/-- Something reads the value that is there after a merge of `id` with `next`: an instruction
other than the jump that goes, or a phi of another block than `next`. -/
inductive ReadPast (g : Graph) (id next : BlockId) (w : ValueId) : Prop
  | instruction {j : InstId} : w ∈ g.operandsOf j → g.jump? id ≠ some j → ReadPast g id next w
  | phi {u : ValueId} : u ∉ (g.blockAt next).phis → w ∈ (g.valueAt u).phiOperands →
      ReadPast g id next w

/-- All that is read past a merge comes from outside the block that goes. -/
def Settled (g : Graph) (id next : BlockId) : Prop :=
  ∀ w, ReadPast g id next w → Grounded g next w

/-! ### One phi gives way -/

/-- What is read instead of a value when `w` stands for `v`. -/
def instead (v w u : ValueId) : ValueId := if u = v then w else u

theorem mem_swapped {l : List ValueId} : u ∈ swapped v w l ↔ ∃ x ∈ l, instead v w x = u :=
  List.mem_map

theorem instead_of_ne (hu : u ≠ v) : instead v w u = u := if_neg hu

theorem Inlined.operandsOf (hone : Inlined g g' v w) (j : InstId) :
    g'.operandsOf j = swapped v w (g.operandsOf j) := by
  rw [Graph.operandsOf, hone.instruction?, Graph.operandsOf]
  cases g.instruction? j <;> rfl

theorem Inlined.jump? (hone : Inlined g g' v w) (id : BlockId) : g'.jump? id = g.jump? id := by
  rw [Graph.jump?, hone.instructions, Graph.jump?]
  congr 1
  funext j
  rw [hone.instruction?]
  cases g.instruction? j <;> rfl

theorem Inlined.mem_phis (hone : Inlined g g' v w) :
    u ∈ (g'.blockAt b).phis ↔ u ∈ (g.blockAt b).phis ∧ u ≠ v := by
  rw [hone.phis, List.mem_filter, decide_eq_true_iff]

theorem Inlined.live_iff (hone : Inlined g g' v w) :
    (g'.valueAt u).live = true ↔ (g.valueAt u).live = true ∧ u ≠ v := by
  rw [hone.live, Bool.and_eq_true, decide_eq_true_iff]

/-- **Where a value comes from is not changed** by a phi that gives way, if what is read is read
under its new name. -/
theorem Inlined.grounded_iff (hone : Inlined g g' v w) (hv : v ∈ (g.blockAt b).phis)
    (hops : (g.valueAt v).phiOperands = [w]) (u : ValueId) :
    Grounded g' b (instead v w u) ↔ Grounded g b u := by
  have hback : ∀ {u}, Grounded g b (instead v w u) → Grounded g b u := by
    intro u hu
    by_cases huv : u = v
    · rw [instead, if_pos huv] at hu
      rw [huv]
      exact .through hv (by rw [hops]; exact List.mem_singleton_self w) hu
    · rwa [instead_of_ne huv] at hu
  constructor
  · intro hu
    generalize hx : instead v w u = x at hu
    induction hu generalizing u with
    | outside hlive hnot =>
      obtain ⟨hlive, hne⟩ := hone.live_iff.1 hlive
      refine hback ?_
      rw [hx]
      exact .outside hlive fun hmem => hnot (hone.mem_phis.2 ⟨hmem, hne⟩)
    | @through x z hmem hz _ ih =>
      obtain ⟨hmem, hne⟩ := hone.mem_phis.1 hmem
      rw [hone.phiOperands, if_neg hne, mem_swapped] at hz
      obtain ⟨y, hy, hyz⟩ := hz
      refine hback ?_
      rw [hx]
      exact .through hmem hy (ih y hyz)
  · intro hu
    induction hu with
    | @outside u hlive hnot =>
      have hne : u ≠ v := fun he => hnot (he ▸ hv)
      rw [instead_of_ne hne]
      exact .outside (hone.live_iff.2 ⟨hlive, hne⟩) fun hmem => hnot (hone.mem_phis.1 hmem).1
    | @through u z hmem hz _ ih =>
      by_cases huv : u = v
      · -- The phi is read as its only operand, of which it is known already.
        rw [huv, hops, List.mem_singleton] at hz
        have hself : instead v w w = w := by
          unfold instead
          split_ifs <;> rfl
        rw [hz, hself] at ih
        rw [instead, if_pos huv]
        exact ih
      · rw [instead_of_ne huv]
        refine .through (hone.mem_phis.2 ⟨hmem, huv⟩) ?_ ih
        rw [hone.phiOperands, if_neg huv, mem_swapped]
        exact ⟨z, hz, rfl⟩

/-- What is read past a merge is read under its new name. -/
theorem Inlined.readPast_iff (hone : Inlined g g' v w) (hv : v ∈ (g.blockAt next).phis) :
    ReadPast g' id next u ↔ ∃ x, ReadPast g id next x ∧ instead v w x = u := by
  constructor
  · rintro (⟨hu, hj⟩ | @⟨x, hx, hu⟩)
    · rw [hone.operandsOf, mem_swapped] at hu
      obtain ⟨y, hy, hyu⟩ := hu
      exact ⟨y, .instruction hy (hone.jump? id ▸ hj), hyu⟩
    · rw [hone.phiOperands] at hu
      by_cases hxv : x = v
      · rw [if_pos hxv] at hu
        exact absurd hu List.not_mem_nil
      · rw [if_neg hxv, mem_swapped] at hu
        obtain ⟨y, hy, hyu⟩ := hu
        exact ⟨y, .phi (fun hmem => hx (hone.mem_phis.2 ⟨hmem, hxv⟩)) hy, hyu⟩
  · rintro ⟨y, ⟨hy, hj⟩ | @⟨x, hx, hy⟩, hyu⟩
    · refine .instruction ?_ (hone.jump? id ▸ hj)
      rw [hone.operandsOf, mem_swapped]
      exact ⟨y, hy, hyu⟩
    · have hxv : x ≠ v := fun he => hx (he ▸ hv)
      refine .phi (fun hmem => hx (hone.mem_phis.1 hmem).1) ?_
      rw [hone.phiOperands, if_neg hxv, mem_swapped]
      exact ⟨y, hy, hyu⟩

theorem Inlined.settled_iff (hone : Inlined g g' v w) (hv : v ∈ (g.blockAt next).phis)
    (hops : (g.valueAt v).phiOperands = [w]) : Settled g' id next ↔ Settled g id next := by
  constructor
  · intro hall u hu
    exact (hone.grounded_iff hv hops u).1 (hall _ ((hone.readPast_iff hv).2 ⟨u, hu, rfl⟩))
  · intro hall u hu
    obtain ⟨x, hx, rfl⟩ := (hone.readPast_iff hv).1 hu
    exact (hone.grounded_iff hv hops x).2 (hall x hx)

theorem Inlined.filled (hone : Inlined g g' v w) (hg : Filled g) : Filled g' := by
  intro b u hb
  rw [hone.phiBlock?] at hb
  split_ifs at hb with hu
  rw [hone.phiOperands, if_neg hu, swapped, List.length_map, hone.keeps.predecessors]
  exact hg b u hb

/-! ### All phis give way -/

theorem InlinedAll.filled (hall : InlinedAll g vs g') (hg : Filled g) : Filled g' := by
  induction hall with
  | nil g => exact hg
  | cons hone _ ih => exact ih (hone.filled hg)

theorem InlinedAll.settled_iff (hall : InlinedAll g vs g')
    (hvs : ∀ v ∈ vs, v ∈ (g.blockAt next).phis)
    (hone : ∀ v ∈ vs, (g.valueAt v).phiOperands.length = 1) :
    Settled g' id next ↔ Settled g id next := by
  induction hall with
  | nil g => rfl
  | @cons g g₁ g' v w vs hinl hrest ih =>
    rw [List.forall_mem_cons] at hvs hone
    have hne : ∀ u ∈ vs, u ≠ v := fun u hu => hinl.ne_of_mem hrest hu
    have hops : (g.valueAt v).phiOperands = [w] := by
      obtain ⟨p, hp, hhead⟩ := hinl.operand
      obtain ⟨x, hx⟩ := List.length_eq_one_iff.1 hone.1
      rw [Value.phiOperands_of_livePhi? hp] at hx ⊢
      rw [hx, List.head?_cons] at hhead
      rw [hx, Option.some.inj hhead]
    rw [ih (fun u hu => hinl.mem_phis.2 ⟨hvs.2 u hu, hne u hu⟩) fun u hu => ?_]
    · exact hinl.settled_iff hvs.1 hops
    · rw [hinl.phiOperands, if_neg (hne u hu), swapped, List.length_map]
      exact hone.2 u hu

/-! ### The jump goes, and the block with it -/

theorem ReadPast.used (h : InStep g) (hw : ReadPast g id next w) :
    (g.valueAt w).isUnused = false := by
  refine Bool.eq_false_iff.2 fun hun => h.not_isRead hun ?_
  rcases hw with ⟨hj, -⟩ | ⟨-, hu⟩
  · exact Or.inl ⟨_, hj⟩
  · exact Or.inr ⟨_, hu⟩

/-- A jump that goes takes with it what it read, and a result that nobody read. -/
theorem JumpDropped.reads (hjump : JumpDropped g id g') (h : InStep g) :
    (∀ j, g'.operandsOf j = if g.jump? id = some j then [] else g.operandsOf j) ∧
      (∀ u, (g'.valueAt u).phiBlock? = (g.valueAt u).phiBlock?) ∧
      (∀ u, (g'.valueAt u).phiOperands = (g.valueAt u).phiOperands) ∧
      ∀ w, (g.valueAt w).isUnused = false → (g'.valueAt w).live = (g.valueAt w).live := by
  cases hjump with
  | same hnone => exact ⟨fun j => by rw [hnone]; rfl, fun _ => rfl, fun _ => rfl, fun _ _ => rfl⟩
  | @jump i x hlast hi hunused =>
    have hvalue : ∀ w, (g.eraseInstruction i).valueAt w = _ := fun w => valueAt_eraseInstruction hi
    have hnone : ∀ w, x.output = some w → (g.valueAt w).phiBlock? = none := fun w hw =>
      Value.phiBlock?_of_definer? ((h.filed.outputs i w).1 (by rw [hi]; exact hw))
    refine ⟨fun j => ?_, fun u => ?_, fun u => ?_, fun w hw => ?_⟩
    · rw [operandsOf, instruction?_eraseInstruction hi, hlast]
      by_cases hj : j = i
      · simp [hj]
      · simp [hj, Ne.symm hj, operandsOf]
    · rw [hvalue, Value.phiBlock?_dieIf, Value.phiBlock?_mapUsers]
      by_cases hu : x.output = some u
      · simp [hu, hnone u hu]
      · simp [hu]
    · rw [hvalue, Value.phiOperands_dieIf, Value.phiOperands_mapUsers]
      by_cases hu : x.output = some u
      · simp [hu, Value.phiOperands_of_phiBlock?_none (hnone u hu)]
      · simp [hu]
    · have hout : x.output ≠ some w := fun he => by simp [hunused w he] at hw
      rw [hvalue, Value.live_dieIf, Value.live_mapUsers]
      simp [hout]

theorem operandsOf_absorb : (g.absorb id next).operandsOf j = g.operandsOf j := by
  rw [operandsOf, instruction?_absorb, operandsOf]
  split_ifs
  · cases g.instruction? j <;> rfl
  · rfl

/-- In a block without phis a value is grounded if it is live. -/
theorem grounded_iff_live (hb : (g.blockAt b).phis = []) :
    Grounded g b w ↔ (g.valueAt w).live = true := by
  constructor
  · intro hw
    cases hw with
    | outside hlive _ => exact hlive
    | through hmem _ _ =>
      rw [hb] at hmem
      exact absurd hmem List.not_mem_nil
  · intro hw
    refine .outside hw ?_
    rw [hb]
    exact List.not_mem_nil

section Absorbing

variable {n : Block} {g₁ g₂ : Graph}

/-- What is read once the jump and the block are gone was read past them. -/
theorem JumpDropped.isRead_absorb (hjump : JumpDropped g₁ id g₂) (h₁ : InStep g₁)
    (hnone : (g₁.blockAt next).phis = []) :
    (g₂.absorb id next).IsRead w ↔ ReadPast g₁ id next w := by
  obtain ⟨hops, -, hphiOps, -⟩ := hjump.reads h₁
  constructor
  · rintro (⟨j, hj⟩ | ⟨u, hu⟩)
    · rw [operandsOf_absorb, hops] at hj
      split_ifs at hj with hlast
      · exact absurd hj List.not_mem_nil
      · exact .instruction hj hlast
    · rw [valueAt_absorb, hphiOps] at hu
      refine .phi ?_ hu
      rw [hnone]
      exact List.not_mem_nil
  · rintro (@⟨j, hj, hlast⟩ | @⟨u, -, hu⟩)
    · refine Or.inl ⟨j, ?_⟩
      rw [operandsOf_absorb, hops, if_neg hlast]
      exact hj
    · refine Or.inr ⟨u, ?_⟩
      rw [valueAt_absorb, hphiOps]
      exact hu

/-- The phis that stay keep their operands, and their blocks the number of predecessors. -/
theorem JumpDropped.filled_absorb (hjump : JumpDropped g₁ id g₂) (h₁ : InStep g₁)
    (hmerge : Mergeable g₂ id next n) (hnone : (g₁.blockAt next).phis = []) (hfilled : Filled g₁) :
    Filled (g₂.absorb id next) := by
  obtain ⟨-, hblock, hphiOps, -⟩ := hjump.reads h₁
  have hkeep := hjump.keeps h₁
  intro b v hb
  rw [valueAt_absorb] at hb ⊢
  have hb₁ : (g₁.valueAt v).phiBlock? = some b := (hblock v).symm.trans hb
  have hne : b ≠ next := by
    rintro rfl
    have hv := h₁.filed.mem_phis.2 hb₁
    rw [hnone] at hv
    exact absurd hv List.not_mem_nil
  rw [hphiOps, hfilled b v hb₁,
    blockAt_absorb hkeep.1.inStep hmerge.hasBlock hmerge.block? hmerge.ne, if_neg hne]
  simp only [List.length_map]
  rw [hkeep.1.predecessors]

/-- **A merge leaves a complete graph complete exactly if all that is read past it comes from
outside the block that goes.** -/
theorem Mergeable.complete_iff (hmerge : Mergeable g id next n) (h : InStep g) (hg : Complete g)
    (hall : InlinedAll g n.phis g₁) (hjump : JumpDropped g₁ id g₂) :
    Complete (g₂.absorb id next) ↔ Settled g id next := by
  have hn := blockAt_of_block? hmerge.block?
  have h₁ := (hall.keeps h).inStep
  obtain ⟨-, n', hmerge', -⟩ := hmerge.ready h hall hjump
  obtain ⟨-, -, -, hlive⟩ := hjump.reads h₁
  have hnone := hmerge.phis_eq_nil hall
  have hsettled : Settled g₁ id next ↔ Settled g id next := by
    refine hall.settled_iff (fun v hv => hn ▸ hv) fun v hv => ?_
    rw [hg.filled next v (h.filed.mem_phis.1 (hn ▸ hv)), hn, hmerge.predecessors]
    rfl
  have hfilled := hjump.filled_absorb h₁ hmerge' hnone (hall.filled hg.filled)
  rw [Graph.complete_iff, and_iff_right hfilled, ← hsettled]
  refine forall_congr' fun w => ?_
  rw [hjump.isRead_absorb h₁ hnone, grounded_iff_live hnone, valueAt_absorb]
  exact imp_congr_right fun hw => by rw [hlive w (hw.used h₁)]

end Absorbing

/-! ### Every edit -/

/-- No live instruction or phi reads a value that was removed. -/
def ReadsLive (g : Graph) : Prop :=
  (∀ i x, g.instruction? i = some x → ∀ w ∈ x.operands, (g.value? w).isSome) ∧
    ∀ v x p, g.value? v = some x → x.phi? = some p → ∀ w ∈ p.operands, (g.value? w).isSome

theorem Complete.readsLive (hg : Complete g) : ReadsLive g := by
  have hsome : ∀ {w}, (g.valueAt w).live = true → (g.value? w).isSome := by
    intro w hw
    rw [value?_eq, if_pos hw]
    rfl
  refine ⟨fun i x hi w hw => hsome ?_, fun v x p hv hp w hw => hsome ?_⟩
  · rw [← operandsOf_of_instruction? hi] at hw
    exact hg.operands i w hw
  · have hphi : (g.valueAt v).livePhi? = some p := by
      rw [livePhi?_eq, hv]
      exact hp
    rw [← Value.phiOperands_of_livePhi? hphi] at hw
    exact hg.phiOperands v w hw

end Graph

/-- The command changes what is built, and does not build more. -/
def Command.isRewrite : Command → Bool
  | replaceValue .. | replaceInstruction .. | removeInstruction _ | split .. | merge _
  | removeEdge .. => true
  | addBlock | addEdge .. | addPhi .. | appendOperand .. | addInstruction ..
  | removeUnreachable => false

/-- If the command is a merge, what is read past it comes from outside the block that goes. -/
def Command.Settled : Command → Graph → Prop
  | merge id, g => ∀ next, (g.blockAt id).successors = [next] → g.Settled id next
  | _, _ => True

namespace Graph

open Edit

theorem Complete.after_iff (hg : Complete g) (h : InStep g) {c : Command}
    (hc : c.isRewrite = true) (hok : c.refusal? g = none) :
    Complete (c.after g) ↔ c.Settled g := by
  cases c with
  | replaceValue old new =>
    refine iff_of_true ?_ trivial
    rcases replaceValue_outcome g old new with href | ⟨-, hnew, hon⟩
    · exact absurd href (not_refuses hok)
    · rw [Command.after, hon]
      show Complete (if old = new then g else g.substitute old new)
      split_ifs
      · exact hg
      · exact hg.substitute h hnew
  | replaceInstruction i operation operands =>
    refine iff_of_true ?_ trivial
    rcases replaceInstruction_outcome g i operation operands with href | ⟨⟨x, hx⟩, hall, hon⟩
    · exact absurd href (not_refuses hok)
    · rw [Command.after, hon]
      exact hg.rewriteInstruction hx hall
  | removeInstruction i =>
    refine iff_of_true ?_ trivial
    rcases removeInstruction_outcome g i with href | ⟨⟨x, hx, hunused⟩, hon⟩
    · exact absurd href (not_refuses hok)
    · rw [Command.after, hon]
      exact hg.eraseInstruction h hx hunused
  | split b index =>
    refine iff_of_true ?_ trivial
    rcases split_outcome g b index with href | ⟨x, hx, -, hon⟩
    · exact absurd href (not_refuses hok)
    · rw [Command.after, hon]
      exact hg.splitAt h hx index
  | merge id =>
    obtain ⟨next, hnext⟩ := exists_ok hok
    obtain ⟨n, g₁, g₂, hmerge, hall, hjump, hon⟩ := h.merge_ok hnext
    rw [Command.after, hon, hmerge.complete_iff h hg hall hjump]
    refine ⟨fun hsettled next' hnext' => ?_, fun hsettled => hsettled next hmerge.successors⟩
    obtain rfl := (List.cons.inj (hmerge.successors.symm.trans hnext')).1
    exact hsettled
  | removeEdge s t =>
    refine iff_of_true ?_ trivial
    rcases removeEdge_outcome g s t with href | ⟨g', hcut, hon⟩
    · exact absurd href (not_refuses hok)
    · rw [Command.after, hon]
      exact hg.unlink? h hcut
  | _ => exact absurd hc (by simp [Command.isRewrite])

/-- **A graph that passes its check passes it after an edit exactly if the edit is no merge, or
all that is read past the merge comes from outside the block that goes**; and then nothing is
left reading a value that was removed. -/
theorem verify_after_iff (h : Reachable g) (hg : g.verify = .ok ()) (c : Command)
    (hc : c.isRewrite = true) (hok : c.refusal? g = none) :
    ((c.after g).verify = .ok () ↔ c.Settled g) ∧ (c.Settled g → ReadsLive (c.after g)) := by
  have hafter := ((h.inStep.verify_eq_ok).1 hg).after_iff h.inStep hc hok
  refine ⟨((h.edit c).inStep.verify_eq_ok).trans hafter, fun hsettled => ?_⟩
  exact (hafter.2 hsettled).readsLive

/-- The hypotheses are satisfiable: a phi with one operand gives way to it. -/
theorem verify_after_iff_merge :
    let g := afterAll [.addBlock, .addBlock, .addEdge ⟨0⟩ ⟨1⟩,
      .addInstruction ⟨0⟩ (.number 1) [] (some (.prim .int)), .addPhi ⟨1⟩ (.prim .int),
      .appendOperand ⟨1⟩ ⟨0⟩, .addInstruction ⟨1⟩ .ret [⟨1⟩] none] (Graph.empty none)
    let c : Command := .merge ⟨0⟩
    g.verify = .ok () ∧ c.refusal? g = none ∧
      (((c.after g).verify = .ok () ↔ c.Settled g) ∧ (c.Settled g → ReadsLive (c.after g))) :=
  ⟨rfl, rfl, verify_after_iff (Reachable.afterAll (.empty none) _) rfl _ rfl rfl⟩

/-- A merge that leaves an instruction reading what is gone: the phi that it reads has itself for
its only operand. -/
theorem merge_leaves_reader :
    let g := afterAll [.addBlock, .addBlock, .addEdge ⟨0⟩ ⟨1⟩, .addPhi ⟨1⟩ (.prim .int),
      .appendOperand ⟨0⟩ ⟨0⟩, .addInstruction ⟨1⟩ .ret [⟨0⟩] none] (Graph.empty none)
    let c : Command := .merge ⟨0⟩
    Reachable g ∧ g.verify = .ok () ∧ c.refusal? g = none ∧
      (c.after g).verify = .error (.missingValue ⟨0⟩) :=
  ⟨Reachable.afterAll (.empty none) _, rfl, rfl, rfl⟩

end Graph
end IrAnalysis
