/-
# Cutting edges keeps the lists in step

An edge goes from the lists of both its ends, and each phi of its target loses the
operand that stands where the source stood among the predecessors.  A phi that has
no operand there yet, as it was not given all of them, loses none: its operands are
still no more than the predecessors that are left.
-/

import IrAnalysis.Proofs.InStep
import Mathlib.Data.List.Nodup

namespace IrAnalysis
namespace Graph

variable {lists lists' : BlockId → Block} {g g' : Graph} {b c s t : BlockId} {v w u phi : ValueId}
  {i j : InstId} {index : Nat}

/-- The same values and instructions, listed otherwise. -/
theorem Filed.relist (h : Filed lists g)
    (hphis : ∀ c w, (lists' c).phis.count w = (lists c).phis.count w)
    (hinsts : ∀ c j, (lists' c).instructions.count j = (lists c).instructions.count j)
    (harity : ∀ c w, (g.valueAt w).phiBlock? = some c →
      (g.valueAt w).phiOperands.length ≤ (lists' c).predecessors.length) : Filed lists' g where
  phis c w := by rw [hphis, h.phis]
  arity := harity
  instructions c j := by rw [hinsts, h.instructions]
  outputs := h.outputs
  uses := h.uses
  phiUses := h.phiUses

/-! ### Operands at a place -/

@[simp] theorem blocks_dropOperand : (dropOperand index g phi).blocks = g.blocks := by
  unfold dropOperand
  split <;> rfl

@[simp] theorem instructions_dropOperand :
    (dropOperand index g phi).instructions = g.instructions := by
  unfold dropOperand
  split <;> rfl

@[simp] theorem live_dropOperand :
    ((dropOperand index g phi).valueAt w).live = (g.valueAt w).live := by
  unfold dropOperand
  split
  · rfl
  · rw [dropPhiUse, valueAt_modifyValue (Or.inl rfl), valueAt_modifyValue (Or.inl rfl)]
    split_ifs <;> simp

theorem valueAt_dropOperand {p : Phi} (hphi : (g.valueAt phi).livePhi? = some p) :
    (dropOperand index g phi).valueAt w =
      (if w = phi then (g.valueAt w).mapOperands (·.eraseIdx index) else g.valueAt w).mapPhiUsers
        fun l => if p.operands[index]? = some w then takeOut phi l else l := by
  have hdef := (Value.livePhi?_eq_some.1 hphi).2
  cases hop : p.operands[index]? with
  | none =>
    -- There is nothing at the place, and nothing is erased.
    have hlen : p.operands.length ≤ index := List.getElem?_eq_none_iff.1 hop
    have hsame : (g.valueAt phi).mapOperands (·.eraseIdx index) = g.valueAt phi := by
      revert hdef
      obtain ⟨ty, d, us, ps, l⟩ := g.valueAt phi
      rintro rfl
      simp [Value.mapOperands, List.eraseIdx_of_length_le hlen]
    simp only [dropOperand, phi?_of_livePhi? hphi, Option.bind_some, hop, reduceCtorEq, if_false,
      Value.mapPhiUsers_id]
    split_ifs with hw
    · rw [hw, hsame]
    · rfl
  | some v =>
    have htake : takeOut phi [] = [] := takeOut_nil
    simp only [dropOperand, phi?_of_livePhi? hphi, Option.bind_some, hop, dropPhiUse]
    rw [valueAt_modifyValue (Or.inl rfl), valueAt_modifyValue (Or.inl rfl)]
    by_cases hw : w = v
    · rw [if_pos hw, hw]
      simp only [if_true]
      rfl
    · have hwv : ¬ some v = some w := fun he => hw (Option.some.inj he).symm
      simp only [if_neg hw, if_neg hwv, Value.mapPhiUsers_id]

theorem Filed.dropOperand (h : Filed lists g) (index : Nat) {p : Phi}
    (hphi : (g.valueAt phi).livePhi? = some p) : Filed lists (dropOperand index g phi) ∧
      (∀ w, ((Graph.dropOperand index g phi).valueAt w).phiBlock? = (g.valueAt w).phiBlock?) ∧
      ∀ w, ((Graph.dropOperand index g phi).valueAt w).phiOperands =
        if w = phi then (g.valueAt w).phiOperands.eraseIdx index
        else (g.valueAt w).phiOperands := by
  have hphiBlock : ∀ w, ((Graph.dropOperand index g phi).valueAt w).phiBlock? =
      (g.valueAt w).phiBlock? := by
    intro w
    rw [valueAt_dropOperand hphi, Value.phiBlock?_mapPhiUsers]
    split_ifs
    · exact Value.phiBlock?_mapOperands
    · rfl
  have hphiOps : ∀ w, ((Graph.dropOperand index g phi).valueAt w).phiOperands =
      if w = phi then (g.valueAt w).phiOperands.eraseIdx index else (g.valueAt w).phiOperands := by
    intro w
    rw [valueAt_dropOperand hphi, Value.phiOperands_mapPhiUsers]
    split_ifs
    · exact Value.phiOperands_mapOperands (Or.inl rfl)
    · rfl
  refine ⟨⟨?_, ?_, ?_, ?_, ?_, ?_⟩, hphiBlock, hphiOps⟩
  · intro c w
    rw [hphiBlock]
    exact h.phis c w
  · intro c w hw
    rw [hphiBlock] at hw
    rw [hphiOps]
    have harity := h.arity c w hw
    split_ifs
    · exact Nat.le_trans (List.length_eraseIdx_le _ _) harity
    · exact harity
  · intro c j
    rw [instruction?_congr instructions_dropOperand]
    exact h.instructions c j
  · intro j w
    rw [instruction?_congr instructions_dropOperand, valueAt_dropOperand hphi,
      Value.definer?_mapPhiUsers]
    split_ifs
    · rw [Value.definer?_mapOperands]
      exact h.outputs j w
    · exact h.outputs j w
  · intro j w
    rw [operandsOf, instruction?_congr instructions_dropOperand, valueAt_dropOperand hphi,
      Value.users_mapPhiUsers]
    split_ifs
    · rw [Value.users_mapOperands]
      exact h.uses j w
    · exact h.uses j w
  · intro u w
    have hops := Value.phiOperands_of_livePhi? hphi
    have huses := h.phiUses u w
    have husers : ((Graph.dropOperand index g phi).valueAt w).phiUsers =
        if p.operands[index]? = some w then takeOut phi (g.valueAt w).phiUsers
        else (g.valueAt w).phiUsers := by
      rw [valueAt_dropOperand hphi, Value.phiUsers_mapPhiUsers]
      split_ifs <;> simp
    rw [husers, hphiOps]
    by_cases hu : u = phi
    · rw [hu, hops] at huses
      rw [if_pos hu, hu, hops, count_eraseIdx_eq]
      split_ifs
      · rw [count_takeOut, if_pos rfl, huses]
      · exact huses
    · rw [if_neg hu]
      split_ifs
      · rw [count_takeOut, if_neg hu]
        exact huses
      · exact huses

/-- The operands at one place go from several phis, each named once. -/
theorem Filed.dropOperands {ps : List ValueId} (h : Filed lists g) (index : Nat) (hnodup : ps.Nodup)
    (hlive : ∀ u ∈ ps, (g.valueAt u).phiBlock?.isSome) :
    Filed lists (ps.foldl (Graph.dropOperand index) g) ∧
      (∀ w, ((ps.foldl (Graph.dropOperand index) g).valueAt w).phiBlock? =
        (g.valueAt w).phiBlock?) ∧
      ∀ w, ((ps.foldl (Graph.dropOperand index) g).valueAt w).phiOperands =
        if w ∈ ps then (g.valueAt w).phiOperands.eraseIdx index
        else (g.valueAt w).phiOperands := by
  induction ps generalizing g with
  | nil => exact ⟨h, fun _ => rfl, fun _ => rfl⟩
  | cons u ps ih =>
    obtain ⟨hu, hnodup⟩ := List.nodup_cons.1 hnodup
    obtain ⟨c, hc⟩ := Option.isSome_iff_exists.1 (hlive u List.mem_cons_self)
    obtain ⟨p, hp, -⟩ := Value.phiBlock?_eq_some.1 hc
    obtain ⟨hfiled, hblock, hops⟩ := h.dropOperand index hp
    obtain ⟨hfiled', hblock', hops'⟩ := ih hfiled hnodup fun w hw => by
      rw [hblock]
      exact hlive w (List.mem_cons_of_mem u hw)
    refine ⟨hfiled', fun w => (hblock' w).trans (hblock w), fun w => ?_⟩
    rw [List.foldl_cons, hops', hops]
    by_cases hwu : w = u
    · subst hwu
      simp only [hu, if_false, if_true, List.mem_cons_self]
    · simp only [hwu, if_false, List.mem_cons, false_or]

/-! ### Edges -/

/-- What an edge that goes leaves of the lists of its ends, and of the phis of its target. -/
structure Cut (g g' : Graph) (s t : BlockId) (index place : Nat) : Prop where
  source : (g.blockAt t).predecessors[index]? = some s
  /-- The source stands nowhere before. -/
  first : (g.blockAt t).predecessorIndex? s = some index
  target : (g.blockAt s).successors[place]? = some t
  blockAt : ∀ c, g'.blockAt c =
    { phis := (g.blockAt c).phis
      instructions := (g.blockAt c).instructions
      predecessors := if c = t then (g.blockAt c).predecessors.eraseIdx index
        else (g.blockAt c).predecessors
      successors := if c = s then (g.blockAt c).successors.eraseIdx place
        else (g.blockAt c).successors }
  hasBlock : ∀ c, g'.HasBlock c ↔ g.HasBlock c

/-- The edge as it is cut, before the phis of its target lose an operand. -/
def cutEdge (g : Graph) (s t : BlockId) (index place : Nat) : Graph :=
  (g.modifyBlock s fun b => { b with successors := b.successors.eraseIdx place }).modifyBlock t
    fun b => { b with predecessors := b.predecessors.eraseIdx index }

theorem unlink?_eq_some (hg : g.unlink? s t = some g') :
    ∃ index place, Cut g g' s t index place ∧
      g' = (g.blockAt t).phis.foldl (Graph.dropOperand index) (g.cutEdge s t index place) := by
  simp only [unlink?, Option.bind_eq_bind, Option.bind_eq_some_iff, Option.pure_def,
    Option.some.injEq, Block.predecessorIndex?] at hg
  obtain ⟨bt, ht, index, hindex, bs, hs, place, hplace, rfl⟩ := hg
  have hbt := blockAt_of_block? ht
  have hbs := blockAt_of_block? hs
  obtain ⟨hilt, hi, -⟩ := List.idxOf?_eq_some_iff.1 hindex
  obtain ⟨hplt, hp, -⟩ := List.idxOf?_eq_some_iff.1 hplace
  have hblocks : ∀ l : List ValueId, (l.foldl (Graph.dropOperand index)
      (g.cutEdge s t index place)).blocks = (g.cutEdge s t index place).blocks :=
    fun l => foldl_keeps (·.blocks) fun _ _ => blocks_dropOperand
  refine ⟨index, place, ⟨?_, ?_, ?_, fun c => ?_, fun c => ?_⟩, by rw [hbt]; rfl⟩
  · rw [hbt]
    exact List.getElem?_eq_some_iff.2 ⟨hilt, hi⟩
  · rw [hbt]
    exact hindex
  · rw [hbs]
    exact List.getElem?_eq_some_iff.2 ⟨hplt, hp⟩
  · refine (blockAt_congr (hblocks _) c).trans ?_
    rw [cutEdge, blockAt_modifyBlock (Or.inl rfl), blockAt_modifyBlock (Or.inl rfl)]
    split_ifs <;> rfl
  · refine (hasBlock_congr (hblocks _) c).trans ?_
    rw [cutEdge, hasBlock_modifyBlock, hasBlock_modifyBlock]

/-- An edge is there to be removed exactly if it is listed. -/
theorem InStep.unlink?_eq_none (h : InStep g) (hg : g.unlink? s t = none) :
    (g.blockAt s).successors.count t = 0 := by
  simp only [unlink?, Option.bind_eq_bind, Option.pure_def] at hg
  rcases hbt : g.block? t with _ | bt
  · have hno : ¬ g.HasBlock t := by simp [HasBlock, hbt]
    rw [h.mirrored s t, blockAt_of_not_hasBlock hno]
    rfl
  · rw [hbt, Option.bind_some] at hg
    rcases hindex : bt.predecessorIndex? s with _ | index
    · have hnot : s ∉ bt.predecessors := List.idxOf?_eq_none_iff.1 hindex
      rw [h.mirrored s t, blockAt_of_block? hbt]
      exact List.count_eq_zero.2 hnot
    · rw [hindex, Option.bind_some] at hg
      rcases hbs : g.block? s with _ | bs
      · have hno : ¬ g.HasBlock s := by simp [HasBlock, hbs]
        rw [blockAt_of_not_hasBlock hno]
        rfl
      · rw [hbs, Option.bind_some] at hg
        rcases hplace : bs.successors.idxOf? t with _ | place
        · rw [blockAt_of_block? hbs]
          exact List.count_eq_zero.2 (List.idxOf?_eq_none_iff.1 hplace)
        · rw [hplace] at hg
          exact absurd hg (by simp)

/-- What an edge that goes leaves of values and instructions: each phi of its target has lost what
it read at the place of the source. -/
theorem InStep.unlink?_reads (h : InStep g) (hg : g.unlink? s t = some g') :
    ∃ index place, Cut g g' s t index place ∧ Filed g.blockAt g' ∧
      (∀ w, (g'.valueAt w).phiBlock? = (g.valueAt w).phiBlock?) ∧
      (∀ w, (g'.valueAt w).phiOperands = if w ∈ (g.blockAt t).phis then
        (g.valueAt w).phiOperands.eraseIdx index else (g.valueAt w).phiOperands) ∧
      (∀ w, (g'.valueAt w).live = (g.valueAt w).live) ∧
      ∀ j, g'.instruction? j = g.instruction? j := by
  obtain ⟨index, place, hcut, hg'⟩ := unlink?_eq_some hg
  have hnodup : (g.blockAt t).phis.Nodup := by
    rw [List.nodup_iff_count_le_one]
    intro w
    rw [h.filed.phis t w]
    split_ifs <;> omega
  have hbefore : Filed g.blockAt (g.cutEdge s t index place) :=
    h.filed.transfer (fun _ => rfl) (fun _ => rfl) (fun _ _ => rfl) (fun _ _ => rfl)
      fun _ _ _ => Nat.le_refl _
  obtain ⟨hfiled, hblock, hops⟩ := hbefore.dropOperands index hnodup fun u hu => by
    have hb := h.filed.mem_phis.1 hu
    exact Option.isSome_iff_exists.2 ⟨t, hb⟩
  rw [← hg'] at hfiled hblock hops
  refine ⟨index, place, hcut, hfiled, hblock, hops, fun w => ?_, fun j => ?_⟩
  · have hkeep : (g'.valueAt w).live = ((g.cutEdge s t index place).valueAt w).live := by
      rw [hg']
      exact foldl_keeps (fun g => (g.valueAt w).live) fun _ _ => live_dropOperand
    exact hkeep
  · have hkeep : g'.instructions = (g.cutEdge s t index place).instructions := by
      rw [hg']
      exact foldl_keeps (·.instructions) fun _ _ => instructions_dropOperand
    exact instruction?_congr hkeep j

theorem InStep.unlink? (h : InStep g) (hg : g.unlink? s t = some g') : InStep g' := by
  obtain ⟨index, place, hcut, hfiled, hblock, hops, -, -⟩ := h.unlink?_reads hg
  constructor
  · refine hfiled.relist ?_ ?_ ?_
    · intro c w
      rw [hcut.blockAt]
    · intro c j
      rw [hcut.blockAt]
    · intro c w hw
      have hwb : (g.valueAt w).phiBlock? = some c := (hblock w).symm.trans hw
      have harity := h.filed.arity c w hwb
      have hilt : index < (g.blockAt t).predecessors.length :=
        (List.getElem?_eq_some_iff.1 hcut.source).1
      rw [hops, hcut.blockAt]
      by_cases hct : c = t
      · subst hct
        rw [if_pos (h.filed.mem_phis.2 hwb)]
        simp only [if_true, List.length_eraseIdx]
        split_ifs <;> omega
      · have hnot : w ∉ (g.blockAt t).phis := fun hmem =>
          hct (Option.some.inj (hwb.symm.trans (h.filed.mem_phis.1 hmem)))
        rw [if_neg hnot]
        simp only [if_neg hct]
        exact harity
  · intro b c
    have hbc := h.mirrored b c
    have hpred := count_eraseIdx (b := b) hcut.source
    have hsucc := count_eraseIdx (b := c) hcut.target
    rw [hcut.blockAt, hcut.blockAt]
    by_cases hb : b = s
    · subst hb
      by_cases hc : c = t
      · subst hc
        simp only [if_true] at hpred hsucc ⊢
        omega
      · simp only [if_true, if_neg hc] at hsucc ⊢
        omega
    · by_cases hc : c = t
      · subst hc
        simp only [if_true, if_neg hb] at hpred ⊢
        omega
      · simp only [if_neg hb, if_neg hc]
        exact hbc

theorem InStep.unlink (h : InStep g) : InStep (g.unlink s t) := by
  rw [Graph.unlink]
  cases hg : g.unlink? s t with
  | none => exact h
  | some g' => exact h.unlink? hg

/-- One edge less, if there was one. -/
theorem InStep.count_successors_unlink (h : InStep g) {x : BlockId} :
    ((g.unlink s t).blockAt c).successors.count x =
      (g.blockAt c).successors.count x - if c = s ∧ x = t then 1 else 0 := by
  rw [Graph.unlink]
  cases hg : g.unlink? s t with
  | none =>
    have hzero := h.unlink?_eq_none hg
    rw [Option.getD_none]
    split_ifs with hcx
    · rw [hcx.1, hcx.2]
      omega
    · rfl
  | some g' =>
    obtain ⟨index, place, hcut, -⟩ := unlink?_eq_some hg
    have hsucc := count_eraseIdx (b := x) hcut.target
    rw [Option.getD_some, hcut.blockAt]
    by_cases hc : c = s
    · subst hc
      by_cases hx : x = t
      · simp only [hx, if_true, and_self] at hsucc ⊢
        omega
      · simp only [hx, if_false, if_true, and_false] at hsucc ⊢
        omega
    · simp only [hc, if_false, false_and, Nat.sub_zero]

theorem hasBlock_unlink : (g.unlink s t).HasBlock c ↔ g.HasBlock c := by
  rw [Graph.unlink]
  cases hg : g.unlink? s t with
  | none => rfl
  | some g' =>
    obtain ⟨index, place, hcut, -⟩ := unlink?_eq_some hg
    exact hcut.hasBlock c

/-- **After it is cut off no edge leads from a block into `reached`**, and all others are there. -/
theorem InStep.unlinkInto (h : InStep g) (reached : List BlockId) (b : BlockId) :
    InStep (unlinkInto reached g b) ∧
      (∀ c, (Graph.unlinkInto reached g b).HasBlock c ↔ g.HasBlock c) ∧
      ∀ c x, ((Graph.unlinkInto reached g b).blockAt c).successors.count x =
        if c = b ∧ x ∈ reached then 0 else (g.blockAt c).successors.count x := by
  have hfold : ∀ (l : List BlockId) (g : Graph), InStep g →
      InStep (l.foldl (fun g s => if s ∈ reached then g.unlink b s else g) g) ∧
      (∀ c, (l.foldl (fun g s => if s ∈ reached then g.unlink b s else g) g).HasBlock c ↔
        g.HasBlock c) ∧
      ∀ c x, ((l.foldl (fun g s => if s ∈ reached then g.unlink b s else g)
        g).blockAt c).successors.count x = (g.blockAt c).successors.count x -
          if c = b ∧ x ∈ reached then l.count x else 0 := by
    intro l
    induction l with
    | nil => exact fun g h => ⟨h, fun _ => Iff.rfl, fun _ _ => by simp⟩
    | cons s l ih =>
      intro g h
      rw [List.foldl_cons]
      by_cases hs : s ∈ reached
      · rw [if_pos hs]
        obtain ⟨hstep, hhas, hcount⟩ := ih _ (h.unlink (s := b) (t := s))
        refine ⟨hstep, fun c => (hhas c).trans hasBlock_unlink, fun c x => ?_⟩
        rw [hcount, h.count_successors_unlink, List.count_cons]
        by_cases hx : x = s
        · subst hx
          by_cases hc : c = b
          · simp [hc, hs]
            omega
          · simp [hc]
        · simp [hx, Ne.symm hx]
      · rw [if_neg hs]
        obtain ⟨hstep, hhas, hcount⟩ := ih g h
        refine ⟨hstep, hhas, fun c x => ?_⟩
        rw [hcount, List.count_cons]
        by_cases hx : x = s
        · subst hx
          simp [hs]
        · simp [Ne.symm hx]
  have hlist : ((g.block? b).map (·.successors)).getD [] = (g.blockAt b).successors := by
    rw [blockAt]
    cases g.block? b <;> rfl
  rw [Graph.unlinkInto, hlist]
  obtain ⟨hstep, hhas, hcount⟩ := hfold (g.blockAt b).successors g h
  refine ⟨hstep, hhas, fun c x => ?_⟩
  rw [hcount]
  by_cases hcx : c = b ∧ x ∈ reached
  · rw [if_pos hcx, if_pos hcx, hcx.1, Nat.sub_self]
  · rw [if_neg hcx, if_neg hcx, Nat.sub_zero]

end Graph
end IrAnalysis
