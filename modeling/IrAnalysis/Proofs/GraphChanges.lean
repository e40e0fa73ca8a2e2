/-
# What each change of a graph does

One group of lemmas for each change of `IrAnalysis.Graph.Change`, in terms of the
views of `IrAnalysis.Proofs.GraphViews`: what the change leaves at each number.
The order in which uses stand in their lists is not said; `count_takeOut` is all
that is known of a list from which a use was taken.
-/

import IrAnalysis.Proofs.GraphViews
import IrAnalysis.Proofs.Lists

namespace IrAnalysis

namespace Graph

variable {g : Graph} {b c : BlockId} {v w : ValueId} {i j : InstId} {vs : List ValueId}

/-- What every step of a fold keeps, the fold keeps. -/
theorem foldl_keeps {α β : Type} (view : Graph → β) {step : Graph → α → Graph} {l : List α}
    (hstep : ∀ g a, view (step g a) = view g) : view (l.foldl step g) = view g := by
  induction l generalizing g with
  | nil => rfl
  | cons a l ih => rw [List.foldl_cons, ih, hstep]

/-- As `foldl_keeps`, for something that holds. -/
theorem foldl_preserves {α : Type} {P : Graph → Prop} {step : Graph → α → Graph} {l : List α}
    (hstep : ∀ g a, a ∈ l → P g → P (step g a)) (hg : P g) : P (l.foldl step g) := by
  induction l generalizing g with
  | nil => exact hg
  | cons a l ih =>
    rw [List.foldl_cons]
    exact ih (fun g b hb => hstep g b (List.mem_cons_of_mem a hb))
      (hstep g a List.mem_cons_self hg)

theorem blockAt_congr {g' : Graph} (h : g'.blocks = g.blocks) (c : BlockId) :
    g'.blockAt c = g.blockAt c := by
  simp [blockAt, block?, h]

theorem hasBlock_congr {g' : Graph} (h : g'.blocks = g.blocks) (c : BlockId) :
    g'.HasBlock c ↔ g.HasBlock c := by
  simp [HasBlock, block?, h]

theorem instruction?_congr {g' : Graph} (h : g'.instructions = g.instructions) (j : InstId) :
    g'.instruction? j = g.instruction? j := by
  simp [instruction?, h]

theorem valueAt_congr {g' : Graph} (h : g'.values = g.values) (w : ValueId) :
    g'.valueAt w = g.valueAt w := by
  simp [valueAt, slot?, h]

/-! ### Uses -/

@[simp] theorem blocks_addUses : (vs.foldl (addUse i) g).blocks = g.blocks :=
  foldl_keeps (·.blocks) fun _ _ => rfl

@[simp] theorem instructions_addUses : (vs.foldl (addUse i) g).instructions = g.instructions :=
  foldl_keeps (·.instructions) fun _ _ => rfl

@[simp] theorem blocks_dropUses : (vs.foldl (dropUse i) g).blocks = g.blocks :=
  foldl_keeps (·.blocks) fun _ _ => rfl

@[simp] theorem instructions_dropUses : (vs.foldl (dropUse i) g).instructions = g.instructions :=
  foldl_keeps (·.instructions) fun _ _ => rfl

@[simp] theorem blocks_dropPhiUses : (vs.foldl (dropPhiUse v) g).blocks = g.blocks :=
  foldl_keeps (·.blocks) fun _ _ => rfl

@[simp] theorem instructions_dropPhiUses :
    (vs.foldl (dropPhiUse v) g).instructions = g.instructions :=
  foldl_keeps (·.instructions) fun _ _ => rfl

theorem valueAt_addUses (hvs : ∀ v ∈ vs, g.HasValue v) :
    (vs.foldl (addUse i) g).valueAt w =
      (g.valueAt w).mapUsers (· ++ List.replicate (vs.count w) i) := by
  induction vs generalizing g with
  | nil => simp [Value.mapUsers]
  | cons v vs ih =>
    rw [List.forall_mem_cons] at hvs
    have hadd : (addUse i g v).valueAt w =
        if w = v then (g.valueAt w).mapUsers (· ++ [i]) else g.valueAt w :=
      valueAt_modifyValue (Or.inr hvs.1)
    have hrest : ∀ u ∈ vs, (addUse i g v).HasValue u :=
      fun u hu => hasValue_modifyValue.2 (hvs.2 u hu)
    rw [List.foldl_cons, ih hrest, hadd, List.count_cons]
    by_cases hw : w = v
    · simp [hw, List.replicate_succ, Value.mapUsers]
    · simp [hw, Ne.symm hw]

theorem valueAt_dropUses :
    (vs.foldl (dropUse i) g).valueAt w = (g.valueAt w).mapUsers (takeOut i)^[vs.count w] := by
  induction vs generalizing g with
  | nil => rfl
  | cons v vs ih =>
    have hdrop : (dropUse i g v).valueAt w =
        if w = v then (g.valueAt w).mapUsers (takeOut i) else g.valueAt w :=
      valueAt_modifyValue (Or.inl rfl)
    rw [List.foldl_cons, ih, hdrop, List.count_cons]
    by_cases hw : w = v
    · simp [hw, Value.mapUsers]
    · simp [hw, Ne.symm hw]

theorem valueAt_dropPhiUses :
    (vs.foldl (dropPhiUse v) g).valueAt w =
      (g.valueAt w).mapPhiUsers (takeOut v)^[vs.count w] := by
  induction vs generalizing g with
  | nil => rfl
  | cons u vs ih =>
    have hdrop : (dropPhiUse v g u).valueAt w =
        if w = u then (g.valueAt w).mapPhiUsers (takeOut v) else g.valueAt w :=
      valueAt_modifyValue (Or.inl rfl)
    rw [List.foldl_cons, ih, hdrop, List.count_cons]
    by_cases hw : w = u
    · simp [hw, Value.mapPhiUsers]
    · simp [hw, Ne.symm hw]

/-! ### Growing -/

theorem block?_pushBlock {x : Block} :
    (g.pushBlock x).block? c = if c = g.nextBlock then some x else g.block? c := by
  have hc : c = g.nextBlock ↔ c.index = g.blocks.length := by
    cases c; simp [nextBlock]
  simp only [block?, pushBlock, getElem?_concat_eq, hc]
  split <;> rfl

theorem not_hasBlock_nextBlock : ¬ g.HasBlock g.nextBlock := by
  simp [HasBlock, block?, nextBlock]

theorem not_hasValue_nextValue : ¬ g.HasValue g.nextValue := by
  simp [HasValue, slot?, nextValue]

theorem instruction?_nextInstruction : g.instruction? g.nextInstruction = none := by
  simp [instruction?, nextInstruction]

theorem blockAt_pushBlock_empty : (g.pushBlock .empty).blockAt c = g.blockAt c := by
  rw [blockAt, block?_pushBlock]
  split
  · next hc => rw [hc, blockAt_of_not_hasBlock not_hasBlock_nextBlock]; rfl
  · rfl

theorem hasBlock_pushBlock {x : Block} :
    (g.pushBlock x).HasBlock c ↔ c = g.nextBlock ∨ g.HasBlock c := by
  rw [HasBlock, block?_pushBlock]
  split
  · next hc => simp [hc]
  · next hc => simp [hc, HasBlock]

/-- An instruction put last. -/
theorem instruction?_append {x : Instruction} :
    ({ g with instructions := g.instructions ++ [some x] } : Graph).instruction? j =
      if j = g.nextInstruction then some x else g.instruction? j := by
  have hj : j = g.nextInstruction ↔ j.index = g.instructions.length := by
    cases j; simp [nextInstruction]
  simp only [instruction?, getElem?_concat_eq, hj]
  split <;> rfl

/-- A value put last, or none. -/
theorem valueAt_append {x : Option Value} :
    ({ g with values := g.values ++ x.toList } : Graph).valueAt w =
      if w = g.nextValue then x.getD .absent else g.valueAt w := by
  have hw : w = g.nextValue ↔ w.index = g.values.length := by
    cases w; simp [nextValue]
  cases x with
  | none =>
    split
    · next he => simp [valueAt, slot?, he, nextValue]
    · simp [valueAt, slot?]
  | some x =>
    simp only [valueAt, slot?, Option.toList_some, getElem?_concat_eq, hw]
    split <;> rfl

theorem hasValue_append {l : List Value} (hv : g.HasValue v) :
    ({ g with values := g.values ++ l } : Graph).HasValue v := by
  obtain ⟨x, hx⟩ := Option.isSome_iff_exists.1 hv
  have hlt : v.index < g.values.length := (List.getElem?_eq_some_iff.1 hx).1
  refine Option.isSome_iff_exists.2 ⟨x, ?_⟩
  rw [← hx]
  exact List.getElem?_append_left hlt

/-! ### Rewriting -/

/-- Renaming a predecessor in some blocks renames it in each of them. -/
theorem blockAt_renamePredecessor {old new : BlockId} {l : List BlockId} :
    (renamePredecessor old new g l).blockAt c =
      if c ∈ l then
        { phis := (g.blockAt c).phis
          instructions := (g.blockAt c).instructions
          predecessors := (g.blockAt c).predecessors.map fun p => if p = old then new else p
          successors := (g.blockAt c).successors }
      else g.blockAt c := by
  unfold renamePredecessor
  induction l generalizing g with
  | nil => rfl
  | cons s l ih =>
    rw [List.foldl_cons, ih, blockAt_modifyBlock (Or.inl rfl)]
    by_cases hs : c = s
    · subst hs
      simp only [if_true, map_rename_idem, List.mem_cons, true_or, ite_self]
    · simp only [hs, if_false, List.mem_cons, false_or]

@[simp] theorem values_renamePredecessor {old new : BlockId} {l : List BlockId} :
    (renamePredecessor old new g l).values = g.values :=
  foldl_keeps (·.values) fun _ _ => rfl

@[simp] theorem instructions_renamePredecessor {old new : BlockId} {l : List BlockId} :
    (renamePredecessor old new g l).instructions = g.instructions :=
  foldl_keeps (·.instructions) fun _ _ => rfl

theorem hasBlock_renamePredecessor {old new : BlockId} {l : List BlockId} :
    (renamePredecessor old new g l).HasBlock c ↔ g.HasBlock c := by
  unfold renamePredecessor
  induction l generalizing g with
  | nil => rfl
  | cons s l ih => rw [List.foldl_cons, ih, hasBlock_modifyBlock]

/-- Instructions said to lie in a block lie there. -/
theorem instruction?_assignBlock {is : List InstId} :
    (assignBlock b g is).instruction? j =
      if j ∈ is then (g.instruction? j).map fun x => { x with block := b }
      else g.instruction? j := by
  unfold assignBlock
  induction is generalizing g with
  | nil => rfl
  | cons i is ih =>
    rw [List.foldl_cons, ih, instruction?_modifyInstruction]
    by_cases hi : j = i <;> by_cases hj : j ∈ is <;> simp_all [Function.comp_def]

@[simp] theorem blocks_assignBlock {is : List InstId} : (assignBlock b g is).blocks = g.blocks :=
  foldl_keeps (·.blocks) fun _ _ => rfl

@[simp] theorem values_assignBlock {is : List InstId} : (assignBlock b g is).values = g.values :=
  foldl_keeps (·.values) fun _ _ => rfl

/-- Operands swapped in some instructions are swapped in each of them. -/
theorem instruction?_mapOperands {is : List InstId} {swap : List ValueId → List ValueId}
    (hswap : ∀ l, swap (swap l) = swap l) :
    (is.foldl (fun g i => g.modifyInstruction i fun x => { x with operands := swap x.operands })
        g).instruction? j =
      if j ∈ is then (g.instruction? j).map fun x => { x with operands := swap x.operands }
      else g.instruction? j := by
  induction is generalizing g with
  | nil => rfl
  | cons i is ih =>
    rw [List.foldl_cons, ih, instruction?_modifyInstruction]
    by_cases hi : j = i <;> by_cases hj : j ∈ is <;> simp_all [Function.comp_def]

/-- Operands swapped in some phis are swapped in each of them. -/
theorem valueAt_mapOperands {ps : List ValueId} {swap : List ValueId → List ValueId}
    (hswap : ∀ l, swap (swap l) = swap l) :
    (ps.foldl (fun g p => g.modifyValue p (·.mapOperands swap)) g).valueAt w =
      if w ∈ ps then (g.valueAt w).mapOperands swap else g.valueAt w := by
  induction ps generalizing g with
  | nil => rfl
  | cons p ps ih =>
    have hidem : ∀ x : Value, (x.mapOperands swap).mapOperands swap = x.mapOperands swap := by
      rintro ⟨t, _ | q, us, qs, l⟩ <;> simp [Value.mapOperands, hswap]
    rw [List.foldl_cons, ih, valueAt_modifyValue (Or.inl rfl)]
    by_cases hp : w = p <;> by_cases hw : w ∈ ps <;> simp_all

/-! ### Shrinking -/

theorem instruction?_set :
    ({ g with instructions := g.instructions.set i.index none } : Graph).instruction? j =
      if j = i then none else g.instruction? j := by
  have hij : i.index = j.index ↔ j = i := by
    cases i; cases j; simp [eq_comm]
  simp only [instruction?, List.getElem?_set, hij]
  by_cases h : j = i
  · simp only [h, if_true]
    split <;> rfl
  · simp [h]

theorem block?_dropBlock : (g.dropBlock b).block? c = if c = b then none else g.block? c := by
  have hbc : b.index = c.index ↔ c = b := by
    cases b; cases c; simp [eq_comm]
  simp only [block?, dropBlock, List.getElem?_set, hbc]
  by_cases h : c = b
  · simp only [h, if_true]
    split <;> rfl
  · simp [h]

theorem blockAt_dropBlock : (g.dropBlock b).blockAt c = if c = b then .empty else g.blockAt c := by
  rw [blockAt, block?_dropBlock]
  split <;> rfl

/-- Values that die. -/
theorem valueAt_dies {vs : List ValueId} :
    (vs.foldl (fun g v => g.modifyValue v fun y => { y with live := false }) g).valueAt w =
      (g.valueAt w).dieIf (w ∈ vs) := by
  induction vs generalizing g with
  | nil => simp
  | cons v vs ih =>
    rw [List.foldl_cons, ih, valueAt_modifyValue (Or.inl rfl)]
    by_cases hv : w = v <;> simp [hv, Value.dieIf]

theorem blocks_dies {vs : List ValueId} :
    (vs.foldl (fun g v => g.modifyValue v fun y => { y with live := false }) g).blocks =
      g.blocks :=
  foldl_keeps (·.blocks) fun _ _ => rfl

theorem instructions_dies {vs : List ValueId} :
    (vs.foldl (fun g v => g.modifyValue v fun y => { y with live := false }) g).instructions =
      g.instructions :=
  foldl_keeps (·.instructions) fun _ _ => rfl

theorem instruction?_discardInstruction :
    (g.discardInstruction i).instruction? j = if j = i then none else g.instruction? j := by
  cases hi : g.instruction? i with
  | none =>
    simp only [discardInstruction, hi]
    split
    · next h => exact h ▸ hi
    · rfl
  | some x =>
    simp only [discardInstruction, hi]
    rw [instruction?_congr instructions_dies, instruction?_congr instructions_dropUses]
    exact instruction?_set

@[simp] theorem blocks_discardInstruction : (g.discardInstruction i).blocks = g.blocks := by
  cases hi : g.instruction? i with
  | none => simp only [discardInstruction, hi]
  | some x =>
    simp only [discardInstruction, hi]
    exact blocks_dies.trans blocks_dropUses

/-- An instruction that goes reads nothing any more, and what it defines goes with it. -/
theorem valueAt_discardInstruction {x : Instruction} (hi : g.instruction? i = some x) :
    (g.discardInstruction i).valueAt w =
      ((g.valueAt w).mapUsers (takeOut i)^[x.operands.count w]).dieIf (x.output = some w) := by
  simp only [discardInstruction, hi]
  rw [valueAt_dies, valueAt_dropUses]
  congr 1
  cases x.output <;> simp [eq_comm]

@[simp] theorem instructions_discardPhi : (g.discardPhi v).instructions = g.instructions := by
  unfold discardPhi
  split
  · rfl
  · exact instructions_dropPhiUses

/-- A phi that goes reads nothing any more. -/
theorem valueAt_discardPhi {p : Phi} (hv : (g.valueAt v).livePhi? = some p) :
    (g.discardPhi v).valueAt w =
      ((if w = v then (g.valueAt w).mapOperands fun _ => [] else g.valueAt w).mapPhiUsers
        (takeOut v)^[p.operands.count w]).dieIf (w = v) := by
  simp only [discardPhi, phi?_of_livePhi? hv]
  rw [valueAt_modifyValue (Or.inl rfl), valueAt_modifyBlock, valueAt_dropPhiUses,
    valueAt_modifyValue (Or.inl rfl)]
  by_cases hw : w = v
  · simp [hw, Value.dieIf]
  · simp [hw]

/-- A phi that goes is listed in its block no more. -/
theorem blockAt_discardPhi {p : Phi} (hv : (g.valueAt v).livePhi? = some p) :
    (g.discardPhi v).blockAt c =
      if c = p.block then
        { phis := (g.blockAt c).phis.filter (· ≠ v)
          instructions := (g.blockAt c).instructions
          predecessors := (g.blockAt c).predecessors
          successors := (g.blockAt c).successors }
      else g.blockAt c := by
  simp only [discardPhi, phi?_of_livePhi? hv]
  rw [blockAt_modifyValue, blockAt_modifyBlock (Or.inl rfl), blockAt_congr blocks_dropPhiUses]
  rfl

end Graph
end IrAnalysis
