/-
# Graphs whose lists are in step

What the lists of a graph say twice they say alike.  A value is listed as a phi by
the block that it names and by no other; an instruction is; an instruction and what
it defines name each other; and the uses of a value are the places that read it,
each as often as it reads it.  `Graph.Filed` says so of blocks given apart from the
graph, so that it can be said of a block that was dropped while what it listed is
still being removed.  `Graph.InStep` says it of the blocks of the graph, and that an
edge is listed by both its ends.

All is said of all numbers, live or not (`IrAnalysis.Proofs.GraphViews`): a number
that names nothing lists nothing and is listed nowhere.  The lemmas here are about
the changes that build a graph and swap what is read; those that move and remove
blocks are in `IrAnalysis.Proofs.Reshaping`.
-/

import IrAnalysis.Proofs.GraphChanges
import Mathlib.Tactic.SplitIfs

namespace IrAnalysis
namespace Graph

/-- **The lists of blocks and the uses of values name what is live**, each as often
as it is there; `lists b` stands for the block `b`. -/
structure Filed (lists : BlockId → Block) (g : Graph) : Prop where
  phis : ∀ b v, (lists b).phis.count v = if (g.valueAt v).phiBlock? = some b then 1 else 0
  arity : ∀ b v, (g.valueAt v).phiBlock? = some b →
    (g.valueAt v).phiOperands.length ≤ (lists b).predecessors.length
  instructions : ∀ b i, (lists b).instructions.count i =
    if (g.instruction? i).map (·.block) = some b then 1 else 0
  outputs : ∀ i v, (g.instruction? i).bind (·.output) = some v ↔ (g.valueAt v).definer? = some i
  uses : ∀ i v, (g.valueAt v).users.count i = (g.operandsOf i).count v
  phiUses : ∀ u v, (g.valueAt v).phiUsers.count u = (g.valueAt u).phiOperands.count v

/-- An edge is listed by both its ends, as often by the one as by the other. -/
def Mirrored (lists : BlockId → Block) : Prop :=
  ∀ b t, (lists b).successors.count t = (lists t).predecessors.count b

/-- **The lists of the graph are in step.** -/
structure InStep (g : Graph) : Prop where
  filed : Filed g.blockAt g
  mirrored : Mirrored g.blockAt

namespace Filed

variable {lists lists' : BlockId → Block} {g g' : Graph}

/-- Only values and instructions matter, and only what the lists list. -/
theorem transfer (h : Filed lists g) (hv : ∀ v, g'.valueAt v = g.valueAt v)
    (hi : ∀ i, g'.instruction? i = g.instruction? i)
    (hphis : ∀ c v, (lists' c).phis.count v = (lists c).phis.count v)
    (hinsts : ∀ c i, (lists' c).instructions.count i = (lists c).instructions.count i)
    (hpreds : ∀ c v, v ∈ (lists c).phis →
      (lists c).predecessors.length ≤ (lists' c).predecessors.length) : Filed lists' g' where
  phis c v := by rw [hphis, hv, h.phis]
  arity c v hb := by
    rw [hv] at hb ⊢
    have hmem : v ∈ (lists c).phis := by
      rw [← List.count_pos_iff, h.phis, if_pos hb]
      exact Nat.one_pos
    exact Nat.le_trans (h.arity c v hb) (hpreds c v hmem)
  instructions c i := by rw [hinsts, hi, h.instructions]
  outputs i v := by rw [hi, hv, h.outputs]
  uses i v := by rw [operandsOf, hi, hv, h.uses, operandsOf]
  phiUses u v := by rw [hv, hv, h.phiUses]

theorem hasValue_of_mem_operandsOf (h : Filed lists g) {i : InstId} {v : ValueId}
    (hv : v ∈ g.operandsOf i) : g.HasValue v := by
  refine hasValue_of_valueAt_ne fun habs => ?_
  have hcount := h.uses i v
  rw [habs, Value.users_absent, List.count_nil] at hcount
  exact List.count_eq_zero.1 hcount.symm hv

theorem hasValue_of_mem_phiOperands (h : Filed lists g) {u v : ValueId}
    (hv : v ∈ (g.valueAt u).phiOperands) : g.HasValue v := by
  refine hasValue_of_valueAt_ne fun habs => ?_
  have hcount := h.phiUses u v
  rw [habs, Value.phiUsers_absent, List.count_nil] at hcount
  exact List.count_eq_zero.1 hcount.symm hv

/-- A number that names no value is read nowhere. -/
theorem unread_of_absent (h : Filed lists g) {w : ValueId} (hw : ¬ g.HasValue w) :
    (∀ i, (g.operandsOf i).count w = 0) ∧ ∀ u, (g.valueAt u).phiOperands.count w = 0 :=
  ⟨fun _ => List.count_eq_zero.2 fun hmem => hw (h.hasValue_of_mem_operandsOf hmem),
    fun _ => List.count_eq_zero.2 fun hmem => hw (h.hasValue_of_mem_phiOperands hmem)⟩

theorem mem_phis (h : Filed lists g) {b : BlockId} {v : ValueId} :
    v ∈ (lists b).phis ↔ (g.valueAt v).phiBlock? = some b := by
  rw [← List.count_pos_iff, h.phis]
  split <;> simp [*]

theorem mem_instructions (h : Filed lists g) {b : BlockId} {i : InstId} :
    i ∈ (lists b).instructions ↔ (g.instruction? i).map (·.block) = some b := by
  rw [← List.count_pos_iff, h.instructions]
  split <;> simp [*]

theorem mem_users (h : Filed lists g) {i : InstId} {v : ValueId} :
    i ∈ (g.valueAt v).users ↔ v ∈ g.operandsOf i := by
  rw [← List.count_pos_iff, h.uses, List.count_pos_iff]

theorem mem_phiUsers (h : Filed lists g) {u v : ValueId} :
    u ∈ (g.valueAt v).phiUsers ↔ v ∈ (g.valueAt u).phiOperands := by
  rw [← List.count_pos_iff, h.phiUses, List.count_pos_iff]

end Filed

/-! ### Growing -/

section Growing

variable {g : Graph} {b c : BlockId} {v phi : ValueId}

theorem InStep.pushBlock (h : InStep g) : InStep (g.pushBlock .empty) where
  filed := h.filed.transfer (fun _ => rfl) (fun _ => rfl)
    (fun _ _ => by rw [blockAt_pushBlock_empty]) (fun _ _ => by rw [blockAt_pushBlock_empty])
    (fun _ _ _ => Nat.le_of_eq (by rw [blockAt_pushBlock_empty]))
  mirrored s t := by rw [blockAt_pushBlock_empty, blockAt_pushBlock_empty, h.mirrored]

theorem blockAt_link {s t : BlockId} (hs : g.HasBlock s) (ht : g.HasBlock t) :
    (g.link s t).blockAt c =
      { phis := (g.blockAt c).phis
        instructions := (g.blockAt c).instructions
        predecessors := (g.blockAt c).predecessors ++ if c = t then [s] else []
        successors := (g.blockAt c).successors ++ if c = s then [t] else [] } := by
  unfold link
  rw [blockAt_modifyBlock (Or.inr (hasBlock_modifyBlock.2 ht)), blockAt_modifyBlock (Or.inr hs)]
  split_ifs <;> simp

theorem InStep.link (h : InStep g) {s t : BlockId} (hs : g.HasBlock s) (ht : g.HasBlock t) :
    InStep (g.link s t) where
  filed := by
    refine h.filed.transfer (fun _ => rfl) (fun _ => rfl) ?_ ?_ ?_
    · intro c v
      rw [blockAt_link hs ht]
    · intro c i
      rw [blockAt_link hs ht]
    · intro c v hv
      rw [blockAt_link hs ht, List.length_append]
      omega
  mirrored b c := by
    rw [blockAt_link hs ht, blockAt_link hs ht, List.count_append, List.count_append,
      h.mirrored b c]
    by_cases hb : b = s <;> by_cases hc : c = t <;> simp [hb, hc, count_one]

theorem blockAt_pushPhi {t : Ty} (hb : g.HasBlock b) :
    (g.pushPhi b t).blockAt c =
      { phis := (g.blockAt c).phis ++ if c = b then [g.nextValue] else []
        instructions := (g.blockAt c).instructions
        predecessors := (g.blockAt c).predecessors
        successors := (g.blockAt c).successors } := by
  refine (blockAt_modifyBlock (Or.inr hb)).trans ?_
  split_ifs <;> simp [blockAt, block?]

theorem valueAt_pushPhi {t : Ty} :
    (g.pushPhi b t).valueAt v =
      if v = g.nextValue then ⟨t, .phi ⟨b, []⟩, [], [], true⟩ else g.valueAt v :=
  valueAt_append (x := some ⟨t, .phi ⟨b, []⟩, [], [], true⟩)

theorem InStep.pushPhi (h : InStep g) {t : Ty} (hb : g.HasBlock b) : InStep (g.pushPhi b t) where
  filed := by
    have hnext : g.valueAt g.nextValue = .absent := valueAt_of_not_hasValue not_hasValue_nextValue
    have hunread := h.filed.unread_of_absent not_hasValue_nextValue
    refine ⟨?_, ?_, ?_, ?_, ?_, ?_⟩
    · intro c v
      rw [blockAt_pushPhi hb, valueAt_pushPhi, List.count_append, h.filed.phis c v]
      by_cases hv : v = g.nextValue
      · have hold : (g.valueAt v).phiBlock? = none := by rw [hv, hnext, Value.phiBlock?_absent]
        have hnew : (⟨t, .phi ⟨b, []⟩, [], [], true⟩ : Value).phiBlock? = some b := rfl
        rw [if_pos hv, hold, hnew]
        by_cases hc : c = b
        · simp [hc, hv]
        · simp [hc, Ne.symm hc]
      · by_cases hc : c = b <;> simp [hv, hc, count_one]
    · intro c v hv
      rw [valueAt_pushPhi] at hv ⊢
      rw [blockAt_pushPhi hb]
      by_cases hn : v = g.nextValue
      · rw [if_pos hn]
        exact Nat.zero_le _
      · rw [if_neg hn] at hv ⊢
        exact h.filed.arity c v hv
    · intro c i
      rw [blockAt_pushPhi hb]
      exact h.filed.instructions c i
    · intro i v
      rw [valueAt_pushPhi]
      have hout := h.filed.outputs i v
      by_cases hn : v = g.nextValue
      · rw [if_pos hn]
        rw [hn, hnext] at hout
        exact hn ▸ hout
      · rw [if_neg hn]
        exact hout
    · intro i v
      rw [valueAt_pushPhi]
      by_cases hn : v = g.nextValue
      · rw [if_pos hn]
        exact hn ▸ (hunread.1 i).symm
      · rw [if_neg hn]
        exact h.filed.uses i v
    · intro u v
      rw [valueAt_pushPhi, valueAt_pushPhi]
      have huses := h.filed.phiUses u v
      by_cases hn : v = g.nextValue
      · rw [if_pos hn]
        by_cases hu : u = g.nextValue
        · rw [if_pos hu]
          rfl
        · rw [if_neg hu]
          exact hn ▸ (hunread.2 u).symm
      · rw [if_neg hn]
        by_cases hu : u = g.nextValue
        · rw [if_pos hu]
          rw [hu, hnext] at huses
          exact hu ▸ huses
        · rw [if_neg hu]
          exact huses
  mirrored s t := by
    rw [blockAt_pushPhi hb, blockAt_pushPhi hb]
    exact h.mirrored s t

theorem valueAt_pushOperand (hv : g.HasValue v) {w : ValueId} :
    (g.pushOperand phi v).valueAt w =
      ((g.valueAt w).mapOperands (· ++ if w = phi then [v] else [])).mapPhiUsers
        (· ++ if w = v then [phi] else []) := by
  unfold pushOperand addPhiUse
  rw [valueAt_modifyValue (Or.inr (hasValue_modifyValue.2 hv)), valueAt_modifyValue (Or.inl rfl)]
  by_cases hw : w = v <;> by_cases hp : w = phi
  · simp only [if_pos hw, if_pos hp]
    rfl
  · simp only [if_pos hw, if_neg hp, List.append_nil, Value.mapOperands_id]
    rfl
  · simp only [if_neg hw, if_pos hp, List.append_nil, Value.mapPhiUsers_id]
  · simp only [if_neg hw, if_neg hp, List.append_nil, Value.mapOperands_id, Value.mapPhiUsers_id]

theorem InStep.pushOperand (h : InStep g) (hv : g.HasValue v)
    (hphi : (g.valueAt phi).phiBlock? = some b)
    (hroom : (g.valueAt phi).phiOperands.length < (g.blockAt b).predecessors.length) :
    InStep (g.pushOperand phi v) where
  filed := by
    have hops : ∀ w, ((g.pushOperand phi v).valueAt w).phiOperands =
        (g.valueAt w).phiOperands ++ if w = phi then [v] else [] := by
      intro w
      rw [valueAt_pushOperand hv, Value.phiOperands_mapPhiUsers, Value.phiOperands_mapOperands]
      by_cases hw : w = phi
      · obtain ⟨p, hp, -⟩ := Value.phiBlock?_eq_some.1 hphi
        exact Or.inr (by rw [hw, hp]; rfl)
      · exact Or.inl (by simp [hw])
    refine ⟨?_, ?_, ?_, ?_, ?_, ?_⟩
    · intro c w
      rw [valueAt_pushOperand hv, Value.phiBlock?_mapPhiUsers, Value.phiBlock?_mapOperands]
      exact h.filed.phis c w
    · intro c w hw
      rw [valueAt_pushOperand hv, Value.phiBlock?_mapPhiUsers, Value.phiBlock?_mapOperands] at hw
      rw [hops, List.length_append]
      show _ ≤ (g.blockAt c).predecessors.length
      by_cases hwp : w = phi
      · subst hwp
        obtain rfl : c = b := Option.some.inj (hw.symm.trans hphi)
        rw [if_pos rfl, List.length_singleton]
        omega
      · have := h.filed.arity c w hw
        rw [if_neg hwp, List.length_nil]
        omega
    · exact h.filed.instructions
    · intro i w
      rw [valueAt_pushOperand hv, Value.definer?_mapPhiUsers, Value.definer?_mapOperands]
      exact h.filed.outputs i w
    · intro i w
      rw [valueAt_pushOperand hv, Value.users_mapPhiUsers, Value.users_mapOperands]
      exact h.filed.uses i w
    · intro u w
      rw [hops, valueAt_pushOperand hv, Value.phiUsers_mapPhiUsers, Value.phiUsers_mapOperands,
        List.count_append, List.count_append, h.filed.phiUses u w]
      by_cases hu : u = phi <;> by_cases hw : w = v <;> simp [hu, hw, count_one]
  mirrored := h.mirrored

end Growing

section Instructions

variable {g : Graph} {b c : BlockId} {v w : ValueId} {i j : InstId} {operation : Operation}
  {operands : List ValueId} {type : Option Ty}

/-- An instruction that is put last is noted by what it reads before its block lists it. -/
theorem pushInstruction_eq (b : BlockId) (operation : Operation) (type : Option Ty)
    (hops : ∀ v ∈ operands, g.HasValue v) :
    ∃ grown : Graph, g.pushInstruction b operation operands type =
        grown.modifyBlock b (fun x =>
          { x with instructions := x.instructions ++ [g.nextInstruction] }) ∧
      grown.blocks = g.blocks ∧
      grown.instructions =
        g.instructions ++ [some ⟨b, operation, operands, type.map fun _ => g.nextValue⟩] ∧
      ∀ w, grown.valueAt w =
        (if w = g.nextValue then
          (type.map fun t => ⟨t, .instruction g.nextInstruction, [], [], true⟩).getD .absent
        else g.valueAt w).mapUsers
          (· ++ List.replicate (operands.count w) g.nextInstruction) := by
  refine ⟨_, rfl, blocks_addUses, congrArg (· ++ _) instructions_addUses, fun w => ?_⟩
  have hdefined : type.toList.map (fun t => (⟨t, .instruction g.nextInstruction, [], [], true⟩ :
      Value)) = (type.map fun t => (⟨t, .instruction g.nextInstruction, [], [], true⟩ :
      Value)).toList := by
    cases type <;> rfl
  refine (valueAt_addUses fun v hv => hasValue_append (hops v hv)).trans ?_
  rw [hdefined, valueAt_append]

theorem blockAt_pushInstruction (hb : g.HasBlock b) (hops : ∀ v ∈ operands, g.HasValue v) :
    (g.pushInstruction b operation operands type).blockAt c =
      { phis := (g.blockAt c).phis
        instructions := (g.blockAt c).instructions ++ if c = b then [g.nextInstruction] else []
        predecessors := (g.blockAt c).predecessors
        successors := (g.blockAt c).successors } := by
  obtain ⟨grown, heq, hblocks, -, -⟩ :=
    pushInstruction_eq b operation type hops
  rw [heq, blockAt_modifyBlock (Or.inr ((hasBlock_congr hblocks b).2 hb)), blockAt_congr hblocks]
  split_ifs <;> simp

theorem instruction?_pushInstruction (hops : ∀ v ∈ operands, g.HasValue v) :
    (g.pushInstruction b operation operands type).instruction? j =
      if j = g.nextInstruction then some ⟨b, operation, operands, type.map fun _ => g.nextValue⟩
      else g.instruction? j := by
  obtain ⟨grown, heq, -, hinsts, -⟩ :=
    pushInstruction_eq b operation type hops
  rw [heq, instruction?_modifyBlock]
  exact (instruction?_congr hinsts j).trans instruction?_append

theorem valueAt_pushInstruction (hops : ∀ v ∈ operands, g.HasValue v) :
    (g.pushInstruction b operation operands type).valueAt w =
      (if w = g.nextValue then
        (type.map fun t => ⟨t, .instruction g.nextInstruction, [], [], true⟩).getD .absent
      else g.valueAt w).mapUsers (· ++ List.replicate (operands.count w) g.nextInstruction) := by
  obtain ⟨grown, heq, -, -, hvalues⟩ :=
    pushInstruction_eq b operation type hops
  rw [heq, valueAt_modifyBlock, hvalues]

/-- The new value is no phi and is not read: for all but its definition it is as absent as
before. -/
theorem view_pushInstruction (b : BlockId) (operation : Operation) (type : Option Ty)
    (hops : ∀ v ∈ operands, g.HasValue v) {β : Type} (f : Value → β)
    (hnew : ∀ t, f ⟨t, .instruction g.nextInstruction, [], [], true⟩ = f .absent)
    (hmap : ∀ x k, f (x.mapUsers k) = f x) (w : ValueId) :
    f ((g.pushInstruction b operation operands type).valueAt w) = f (g.valueAt w) := by
  rw [valueAt_pushInstruction hops, hmap]
  by_cases hw : w = g.nextValue
  · rw [if_pos hw, hw, valueAt_of_not_hasValue not_hasValue_nextValue]
    cases type with
    | none => rfl
    | some t => exact hnew t
  · rw [if_neg hw]

theorem definer?_pushInstruction (hops : ∀ v ∈ operands, g.HasValue v) :
    ((g.pushInstruction b operation operands type).valueAt w).definer? =
      if w = g.nextValue then type.map fun _ => g.nextInstruction
      else (g.valueAt w).definer? := by
  rw [valueAt_pushInstruction hops, Value.definer?_mapUsers]
  by_cases hw : w = g.nextValue
  · rw [if_pos hw, if_pos hw]
    cases type <;> rfl
  · rw [if_neg hw, if_neg hw]

theorem users_pushInstruction (hops : ∀ v ∈ operands, g.HasValue v) :
    ((g.pushInstruction b operation operands type).valueAt w).users =
      (g.valueAt w).users ++ List.replicate (operands.count w) g.nextInstruction := by
  rw [valueAt_pushInstruction hops, Value.users_mapUsers]
  by_cases hw : w = g.nextValue
  · rw [if_pos hw, hw, valueAt_of_not_hasValue not_hasValue_nextValue]
    cases type <;> rfl
  · rw [if_neg hw]

theorem InStep.pushInstruction (h : InStep g) (hb : g.HasBlock b)
    (hops : ∀ v ∈ operands, g.HasValue v) :
    InStep (g.pushInstruction b operation operands type) where
  filed := by
    have hnext : g.valueAt g.nextValue = .absent := valueAt_of_not_hasValue not_hasValue_nextValue
    have hnone : g.instruction? g.nextInstruction = none := instruction?_nextInstruction
    have hphiBlock := view_pushInstruction b operation type hops
      Value.phiBlock? (fun _ => rfl) fun _ _ => rfl
    have hphiOps := view_pushInstruction b operation type hops
      Value.phiOperands (fun _ => rfl) fun _ _ => rfl
    have hphiUsers := view_pushInstruction b operation type hops
      Value.phiUsers (fun _ => rfl) fun _ _ => rfl
    refine ⟨?_, ?_, ?_, ?_, ?_, ?_⟩
    · intro c w
      rw [blockAt_pushInstruction hb hops, hphiBlock]
      exact h.filed.phis c w
    · intro c w hw
      rw [hphiBlock] at hw
      rw [blockAt_pushInstruction hb hops, hphiOps]
      exact h.filed.arity c w hw
    · intro c j
      rw [blockAt_pushInstruction hb hops, instruction?_pushInstruction hops, List.count_append,
        h.filed.instructions c j]
      by_cases hj : j = g.nextInstruction
      · rw [if_pos hj, hj, hnone]
        by_cases hc : c = b
        · simp [hc]
        · simp [hc, Ne.symm hc]
      · by_cases hc : c = b <;> simp [hc, hj, count_one]
    · intro j w
      rw [instruction?_pushInstruction hops, definer?_pushInstruction hops]
      have hout := h.filed.outputs j w
      by_cases hj : j = g.nextInstruction
      · rw [hj, hnone] at hout
        rw [if_pos hj, hj]
        by_cases hw : w = g.nextValue
        · rw [if_pos hw]
          cases type <;> simp [hw]
        · rw [if_neg hw, ← hout]
          cases type <;> simp [Ne.symm hw]
      · rw [if_neg hj, hout]
        by_cases hw : w = g.nextValue
        · rw [if_pos hw, hw, hnext]
          cases type <;> simp [Ne.symm hj]
        · rw [if_neg hw]
    · intro j w
      rw [operandsOf, instruction?_pushInstruction hops, users_pushInstruction hops,
        List.count_append, List.count_replicate, h.filed.uses j w]
      by_cases hj : j = g.nextInstruction
      · simp [operandsOf, hj, hnone]
      · simp [operandsOf, hj, Ne.symm hj]
    · intro u w
      rw [hphiUsers, hphiOps]
      exact h.filed.phiUses u w
  mirrored s t := by
    rw [blockAt_pushInstruction hb hops, blockAt_pushInstruction hb hops]
    exact h.mirrored s t

theorem operandsOf_of_instruction? {x : Instruction} (hi : g.instruction? i = some x) :
    g.operandsOf i = x.operands := by
  rw [operandsOf, hi]
  rfl

theorem instruction?_rewriteInstruction :
    (g.rewriteInstruction i operation operands).instruction? j =
      if j = i then (g.instruction? j).map fun x => { x with operation, operands }
      else g.instruction? j := by
  unfold rewriteInstruction
  rw [instruction?_congr instructions_addUses, instruction?_congr instructions_dropUses]
  exact instruction?_modifyInstruction

theorem blockAt_rewriteInstruction :
    (g.rewriteInstruction i operation operands).blockAt c = g.blockAt c := by
  unfold rewriteInstruction
  rw [blockAt_congr blocks_addUses, blockAt_congr blocks_dropUses]
  rfl

theorem valueAt_rewriteInstruction (hops : ∀ v ∈ operands, g.HasValue v) :
    (g.rewriteInstruction i operation operands).valueAt w =
      ((g.valueAt w).mapUsers (takeOut i)^[(g.operandsOf i).count w]).mapUsers
        (· ++ List.replicate (operands.count w) i) := by
  unfold rewriteInstruction
  rw [valueAt_addUses, valueAt_dropUses]
  · rfl
  · intro v hv
    exact foldl_preserves (P := fun g => g.HasValue v) (fun _ _ _ hg => hasValue_modifyValue.2 hg)
      (hops v hv)

theorem InStep.rewriteInstruction (h : InStep g) {x : Instruction} (hi : g.instruction? i = some x)
    (hops : ∀ v ∈ operands, g.HasValue v) : InStep (g.rewriteInstruction i operation operands) where
  filed := by
    refine ⟨?_, ?_, ?_, ?_, ?_, ?_⟩
    · intro c w
      rw [blockAt_rewriteInstruction, valueAt_rewriteInstruction hops]
      exact h.filed.phis c w
    · intro c w hw
      rw [valueAt_rewriteInstruction hops] at hw ⊢
      rw [blockAt_rewriteInstruction]
      exact h.filed.arity c w hw
    · intro c j
      rw [blockAt_rewriteInstruction, instruction?_rewriteInstruction, h.filed.instructions c j]
      by_cases hj : j = i <;> simp [hj, hi]
    · intro j w
      rw [valueAt_rewriteInstruction hops, instruction?_rewriteInstruction,
        Value.definer?_mapUsers, Value.definer?_mapUsers, ← h.filed.outputs j w]
      by_cases hj : j = i <;> simp [hj, hi]
    · intro j w
      rw [valueAt_rewriteInstruction hops, Value.users_mapUsers, Value.users_mapUsers,
        List.count_append, count_iterate_takeOut, List.count_replicate, h.filed.uses j w]
      by_cases hj : j = i
      · simp [operandsOf, instruction?_rewriteInstruction, hj, hi]
      · simp [operandsOf, instruction?_rewriteInstruction, hj, Ne.symm hj]
    · intro u w
      rw [valueAt_rewriteInstruction hops, valueAt_rewriteInstruction hops]
      exact h.filed.phiUses u w
  mirrored s t := by
    rw [blockAt_rewriteInstruction, blockAt_rewriteInstruction]
    exact h.mirrored s t

end Instructions

/-! ### Swapping what is read -/

section Substitution

variable {g : Graph} {c : BlockId} {old new v w : ValueId} {j : InstId}

/-- One value for another. -/
def swapped (old new : ValueId) (l : List ValueId) : List ValueId :=
  l.map fun v => if v = old then new else v

theorem swapped_of_not_mem {l : List ValueId} (hl : old ∉ l) : swapped old new l = l := by
  refine (List.map_congr_left fun v hv => ?_).trans (List.map_id l)
  have hne : v ≠ old := fun he => hl (he ▸ hv)
  exact if_neg hne

/-- Those that are listed as readers of `old` are told to read `new`, before `new` lists them. -/
theorem substitute_eq (g : Graph) (old new : ValueId) :
    ∃ told : Graph, g.substitute old new = told.modifyValue new (fun x =>
        { x with
          users := x.users ++ (g.valueAt old).users
          phiUsers := x.phiUsers ++ (g.valueAt old).phiUsers }) ∧
      told.blocks = g.blocks ∧
      (∀ j, told.instruction? j = if j ∈ (g.valueAt old).users then
        (g.instruction? j).map fun x => { x with operands := swapped old new x.operands }
        else g.instruction? j) ∧
      (∀ w, told.HasValue w ↔ g.HasValue w) ∧
      ∀ w, told.valueAt w = if w ∈ (g.valueAt old).phiUsers then
        (if w = old then { g.valueAt w with users := [], phiUsers := [] }
          else g.valueAt w).mapOperands (swapped old new)
        else if w = old then { g.valueAt w with users := [], phiUsers := [] } else g.valueAt w := by
  have hidem : ∀ l, swapped old new (swapped old new l) = swapped old new l :=
    map_rename_idem old new
  let unread := g.modifyValue old fun x => { x with users := [], phiUsers := [] }
  let rewired := (g.valueAt old).users.foldl (fun g i => g.modifyInstruction i fun x =>
    { x with operands := swapped old new x.operands }) unread
  let told := (g.valueAt old).phiUsers.foldl
    (fun g p => g.modifyValue p (·.mapOperands (swapped old new))) rewired
  have hblocks : told.blocks = rewired.blocks := foldl_keeps (·.blocks) fun _ _ => rfl
  have hinsts : told.instructions = rewired.instructions :=
    foldl_keeps (·.instructions) fun _ _ => rfl
  have hrewiredBlocks : rewired.blocks = unread.blocks := foldl_keeps (·.blocks) fun _ _ => rfl
  have hrewiredValues : rewired.values = unread.values := foldl_keeps (·.values) fun _ _ => rfl
  refine ⟨told, ?_, hblocks.trans hrewiredBlocks, fun j => ?_, fun w => ?_, fun w => ?_⟩
  · rw [← readingInstructions_eq, ← readingPhis_eq]
    simp only [told, rewired, unread, ← readingInstructions_eq, ← readingPhis_eq]
    rfl
  · rw [instruction?_congr hinsts]
    exact instruction?_mapOperands hidem
  · have htold : told.HasValue w = rewired.HasValue w :=
      foldl_keeps (·.HasValue w) fun _ _ => propext hasValue_modifyValue
    rw [htold, HasValue, slot?, hrewiredValues]
    exact hasValue_modifyValue
  · rw [valueAt_mapOperands hidem, valueAt_congr hrewiredValues]
    rw [valueAt_modifyValue (Or.inl rfl)]

@[simp] theorem blockAt_substitute : (g.substitute old new).blockAt c = g.blockAt c := by
  obtain ⟨told, heq, hblocks, -⟩ := substitute_eq g old new
  rw [heq, blockAt_modifyValue, blockAt_congr hblocks]

theorem hasBlock_substitute : (g.substitute old new).HasBlock c ↔ g.HasBlock c := by
  obtain ⟨told, heq, hblocks, -⟩ := substitute_eq g old new
  rw [heq, hasBlock_modifyValue, hasBlock_congr hblocks]

/-- In an instruction that is not listed as a reader there is nothing to swap. -/
theorem instruction?_substitute (h : Filed g.blockAt g) :
    (g.substitute old new).instruction? j =
      (g.instruction? j).map fun x => { x with operands := swapped old new x.operands } := by
  obtain ⟨told, heq, -, hinsts, -⟩ := substitute_eq g old new
  rw [heq, instruction?_modifyValue, hinsts]
  by_cases hj : j ∈ (g.valueAt old).users
  · rw [if_pos hj]
  · rw [if_neg hj]
    cases hx : g.instruction? j with
    | none => rfl
    | some x =>
      rw [h.mem_users, operandsOf_of_instruction? hx] at hj
      rw [Option.map_some, swapped_of_not_mem hj]

theorem operandsOf_substitute (h : Filed g.blockAt g) :
    (g.substitute old new).operandsOf j = swapped old new (g.operandsOf j) := by
  rw [operandsOf, instruction?_substitute h, operandsOf]
  cases g.instruction? j <;> rfl

/-- Where a value stands does not depend on who reads it and what it reads. -/
theorem view_substitute {β : Type} (view : Value → β)
    (huses : ∀ x us ps, view { x with users := us, phiUsers := ps } = view x)
    (hops : ∀ x k, view (x.mapOperands k) = view x) (hnew : g.HasValue new) :
    view ((g.substitute old new).valueAt w) = view (g.valueAt w) := by
  obtain ⟨told, heq, -, -, hhas, hvalues⟩ := substitute_eq g old new
  have htold : view (told.valueAt w) = view (g.valueAt w) := by
    rw [hvalues]
    split_ifs <;> simp only [hops, huses]
  rw [heq, valueAt_modifyValue (Or.inr ((hhas new).2 hnew))]
  split_ifs
  · exact (huses _ _ _).trans htold
  · exact htold

theorem phiBlock?_substitute (hnew : g.HasValue new) :
    ((g.substitute old new).valueAt w).phiBlock? = (g.valueAt w).phiBlock? :=
  view_substitute (·.phiBlock?) (fun _ _ _ => rfl) (fun _ _ => Value.phiBlock?_mapOperands) hnew

theorem definer?_substitute (hnew : g.HasValue new) :
    ((g.substitute old new).valueAt w).definer? = (g.valueAt w).definer? :=
  view_substitute (·.definer?) (fun _ _ _ => rfl) (fun _ _ => Value.definer?_mapOperands) hnew

/-- In a phi that is not listed as a reader there is nothing to swap. -/
theorem phiOperands_substitute (h : Filed g.blockAt g) (hnew : g.HasValue new) :
    ((g.substitute old new).valueAt w).phiOperands =
      swapped old new (g.valueAt w).phiOperands := by
  obtain ⟨told, heq, -, -, hhas, hvalues⟩ := substitute_eq g old new
  have htold : (told.valueAt w).phiOperands = swapped old new (g.valueAt w).phiOperands := by
    rw [hvalues]
    by_cases hw : w ∈ (g.valueAt old).phiUsers
    · rw [if_pos hw, Value.phiOperands_mapOperands (Or.inl rfl)]
      split_ifs <;> rfl
    · rw [if_neg hw]
      rw [h.mem_phiUsers] at hw
      rw [swapped_of_not_mem hw]
      split_ifs <;> rfl
  rw [heq, valueAt_modifyValue (Or.inr ((hhas new).2 hnew))]
  split_ifs
  · exact htold
  · exact htold

/-- The readers of the old value turn to the new one. -/
theorem users_substitute (hne : old ≠ new) (hnew : g.HasValue new) :
    ((g.substitute old new).valueAt w).users =
        (if w = new then (g.valueAt new).users ++ (g.valueAt old).users
        else if w = old then [] else (g.valueAt w).users) ∧
      ((g.substitute old new).valueAt w).phiUsers =
        if w = new then (g.valueAt new).phiUsers ++ (g.valueAt old).phiUsers
        else if w = old then [] else (g.valueAt w).phiUsers := by
  obtain ⟨told, heq, -, -, hhas, hvalues⟩ := substitute_eq g old new
  have htold : (told.valueAt w).users = (if w = old then [] else (g.valueAt w).users) ∧
      (told.valueAt w).phiUsers = if w = old then [] else (g.valueAt w).phiUsers := by
    rw [hvalues]
    split_ifs <;> simp
  rw [heq, valueAt_modifyValue (Or.inr ((hhas new).2 hnew))]
  by_cases hw : w = new
  · have hwo : w ≠ old := fun he => hne (he.symm.trans hw)
    rw [if_neg hwo, if_neg hwo] at htold
    rw [if_pos hw, if_pos hw, if_pos hw, htold.1, htold.2, hw]
    exact ⟨rfl, rfl⟩
  · rw [if_neg hw, if_neg hw, if_neg hw]
    exact htold

theorem InStep.substitute (h : InStep g) (hne : old ≠ new) (hnew : g.HasValue new) :
    InStep (g.substitute old new) where
  filed := by
    refine ⟨?_, ?_, ?_, ?_, ?_, ?_⟩
    · intro c w
      rw [blockAt_substitute, phiBlock?_substitute hnew]
      exact h.filed.phis c w
    · intro c w hw
      rw [phiBlock?_substitute hnew] at hw
      rw [blockAt_substitute, phiOperands_substitute h.filed hnew, swapped, List.length_map]
      exact h.filed.arity c w hw
    · intro c j
      rw [blockAt_substitute, instruction?_substitute h.filed, h.filed.instructions c j,
        Option.map_map]
      rfl
    · intro j w
      rw [definer?_substitute hnew, ← h.filed.outputs j w, instruction?_substitute h.filed]
      cases g.instruction? j <;> rfl
    · intro j w
      rw [(users_substitute hne hnew).1, operandsOf_substitute h.filed, swapped,
        count_map_rename hne, ← h.filed.uses j new, ← h.filed.uses j old, ← h.filed.uses j w]
      split_ifs <;> simp [List.count_append]
    · intro u w
      rw [(users_substitute hne hnew).2, phiOperands_substitute h.filed hnew, swapped,
        count_map_rename hne, ← h.filed.phiUses u new, ← h.filed.phiUses u old,
        ← h.filed.phiUses u w]
      split_ifs <;> simp [List.count_append]
  mirrored s t := by
    rw [blockAt_substitute, blockAt_substitute]
    exact h.mirrored s t

end Substitution

end Graph
end IrAnalysis
