/-
# What each edit does when it does not refuse

An edit that refuses leaves the graph as it was, save `merge`, which may have put
operands in the place of phis by then.  Each other edit comes with one theorem that
says what it had to find and which change it made.
-/

import IrAnalysis.Proofs.GraphViews

namespace IrAnalysis
namespace Edit

variable {α β : Type} {g : Graph}

@[simp] theorem on_pure (a : α) : (pure a : Edit α).on g = (.ok a, g) := rfl

@[simp] theorem on_throw (err : GraphError) : (throw err : Edit α).on g = (.error err, g) := rfl

@[simp] theorem on_check (f : Graph → Except GraphError α) : (check f).on g = (f g, g) := rfl

@[simp] theorem on_change (f : Graph → Graph) : (change f).on g = (.ok (), f g) := rfl

@[simp] theorem on_get : (get : Edit Graph).on g = (.ok g, g) := rfl

@[simp] theorem on_set (g' : Graph) : (set g' : Edit PUnit).on g = (.ok ⟨⟩, g') := rfl

@[simp] theorem on_bind (e : Edit α) (k : α → Edit β) :
    (e >>= k).on g = match e.on g with
      | (.ok a, g') => (k a).on g'
      | (.error err, g') => (.error err, g') := by
  show (match e g with
    | (x, g') => (ExceptT.bindCont k x) g') = _
  rcases he : e g with ⟨_ | a, g'⟩ <;> simp [on, he] <;> rfl

@[simp] theorem on_map (f : α → β) (e : Edit α) :
    (f <$> e).on g = match e.on g with
      | (.ok a, g') => (.ok (f a), g')
      | (.error err, g') => (.error err, g') := by
  rw [map_eq_pure_bind, on_bind]
  rfl

@[simp] theorem on_discard (e : Edit α) :
    (discard e).on g = match e.on g with
      | (.ok _, g') => (.ok ⟨⟩, g')
      | (.error err, g') => (.error err, g') := by
  show ((fun _ => PUnit.unit) <$> e).on g = _
  rw [on_map]

/-- The edit refuses, and leaves the graph as it was. -/
def Refuses (e : Edit α) (g : Graph) : Prop := ∃ err, e.on g = (.error err, g)

end Edit

namespace Graph

open Edit

variable {g : Graph} {b id s t : BlockId} {v w phi old new : ValueId} {i : InstId}
  {operation : Operation} {operands : List ValueId} {type : Option Ty}

/-! ### Checks -/

theorem checkBlock_of_block? {x : Block} (hb : g.block? b = some x) : g.checkBlock b = .ok x := by
  simp [checkBlock, hb]

theorem checkBlock_of_none (hb : g.block? b = none) :
    g.checkBlock b = .error (.missingBlock b) := by
  simp [checkBlock, hb]

theorem checkValue_of_live (hv : (g.valueAt v).live = true) :
    g.checkValue v = .ok (g.valueAt v) := by
  simp [checkValue, value?_eq, hv]

theorem checkValue_of_not_live (hv : ¬ (g.valueAt v).live = true) :
    g.checkValue v = .error (.missingValue v) := by
  simp [checkValue, value?_eq, hv]

/-- Values pass the check exactly if all are live. -/
theorem checkValues_cases (g : Graph) (vs : List ValueId) :
    (∃ err, g.checkValues vs = .error err) ∨
      (∀ v ∈ vs, (g.valueAt v).live = true) ∧ g.checkValues vs = .ok () := by
  unfold checkValues
  induction vs with
  | nil => exact Or.inr ⟨fun _ hv => absurd hv List.not_mem_nil, rfl⟩
  | cons v vs ih =>
    have hstep : (v :: vs).forM (fun v => discard (g.checkValue v)) =
        (do discard (g.checkValue v); vs.forM fun v => discard (g.checkValue v)) := rfl
    rw [hstep]
    by_cases hv : (g.valueAt v).live = true
    · rw [checkValue_of_live hv]
      rcases ih with ⟨err, herr⟩ | ⟨hall, hok⟩
      · exact Or.inl ⟨err, herr⟩
      · refine Or.inr ⟨?_, hok⟩
        intro w hw
        rcases List.mem_cons.1 hw with rfl | hw
        · exact hv
        · exact hall w hw
    · rw [checkValue_of_not_live hv]
      exact Or.inl ⟨.missingValue v, rfl⟩

theorem livePhi?_of_live {p : Phi} (hv : (g.valueAt v).live = true) (hp : g.phi? v = some p) :
    (g.valueAt v).livePhi? = some p := by
  rw [phi?_eq] at hp
  rw [Value.livePhi?, if_pos hv, hp]

/-! ### Building -/

theorem addEdge_outcome (g : Graph) (s t : BlockId) :
    (addEdge s t).Refuses g ∨
      g.HasBlock s ∧ g.HasBlock t ∧ (addEdge s t).on g = (.ok (), g.link s t) := by
  unfold addEdge
  cases ht : g.block? t with
  | none => exact Or.inl ⟨.missingBlock t, by simp [checkBlock_of_none ht]⟩
  | some y =>
    cases hs : g.block? s with
    | none => exact Or.inl ⟨.missingBlock s, by simp [checkBlock_of_block? ht,
        checkBlock_of_none hs]⟩
    | some x =>
      refine Or.inr ⟨hasBlock_of_block? hs, hasBlock_of_block? ht, ?_⟩
      simp [checkBlock_of_block? ht, checkBlock_of_block? hs]

theorem addPhi_outcome (g : Graph) (b : BlockId) (ty : Ty) :
    (addPhi b ty).Refuses g ∨
      g.HasBlock b ∧ (addPhi b ty).on g = (.ok g.nextValue, g.pushPhi b ty) := by
  unfold addPhi
  cases hb : g.block? b with
  | none => exact Or.inl ⟨.missingBlock b, by simp [checkBlock_of_none hb]⟩
  | some x =>
    refine Or.inr ⟨hasBlock_of_block? hb, ?_⟩
    simp [checkBlock_of_block? hb]

theorem appendOperand_outcome (g : Graph) (phi v : ValueId) :
    (appendOperand phi v).Refuses g ∨
      (g.valueAt v).live = true ∧
      (∃ p, (g.valueAt phi).livePhi? = some p ∧ g.HasBlock p.block ∧
        p.operands.length < (g.blockAt p.block).predecessors.length) ∧
      (appendOperand phi v).on g = (.ok (), g.pushOperand phi v) := by
  unfold appendOperand
  by_cases hv : (g.valueAt v).live = true
  · by_cases hphi : (g.valueAt phi).live = true
    · cases hp : (g.valueAt phi).phi? with
      | none =>
        refine Or.inl ⟨.notAPhi phi, ?_⟩
        simp [checkValue_of_live hv, checkValue_of_live hphi, hp]
      | some p =>
        cases hb : g.block? p.block with
        | none =>
          refine Or.inl ⟨.missingBlock p.block, ?_⟩
          simp [checkValue_of_live hv, checkValue_of_live hphi, hp, checkBlock_of_none hb]
        | some x =>
          by_cases hfull : x.predecessors.length ≤ p.operands.length
          · refine Or.inl ⟨.phiComplete phi x.predecessors.length p.block, ?_⟩
            simp [checkValue_of_live hv, checkValue_of_live hphi, hp, checkBlock_of_block? hb,
              hfull]
          · refine Or.inr ⟨hv, ⟨p, ?_, hasBlock_of_block? hb, ?_⟩, ?_⟩
            · exact livePhi?_of_live hphi ((phi?_eq g phi).trans hp)
            · rw [blockAt_of_block? hb]
              omega
            · simp [checkValue_of_live hv, checkValue_of_live hphi, hp, checkBlock_of_block? hb,
                hfull]
    · refine Or.inl ⟨.missingValue phi, ?_⟩
      simp [checkValue_of_live hv, checkValue_of_not_live hphi]
  · exact Or.inl ⟨.missingValue v, by simp [checkValue_of_not_live hv]⟩

theorem addInstruction_outcome (g : Graph) (b : BlockId) (operation : Operation)
    (operands : List ValueId) (type : Option Ty) :
    (addInstruction b operation operands type).Refuses g ∨
      g.HasBlock b ∧ (∀ v ∈ operands, (g.valueAt v).live = true) ∧
      (operation.passesThrough = true → operands.length = 1) ∧
      (addInstruction b operation operands type).on g =
        (.ok g.nextInstruction, g.pushInstruction b operation operands type) := by
  unfold addInstruction
  cases hb : g.block? b with
  | none => exact Or.inl ⟨.missingBlock b, by simp [checkBlock_of_none hb]⟩
  | some x =>
    rcases checkValues_cases g operands with ⟨err, herr⟩ | ⟨hall, hok⟩
    · exact Or.inl ⟨err, by simp [checkBlock_of_block? hb, herr]⟩
    · by_cases hone : operation.passesThrough = true ∧ operands.length ≠ 1
      · refine Or.inl ⟨.operandCount operation operands.length, ?_⟩
        simp [checkBlock_of_block? hb, hok, hone]
      · refine Or.inr ⟨hasBlock_of_block? hb, hall, fun hpass => ?_, ?_⟩
        · by_contra hne
          exact hone ⟨hpass, hne⟩
        · simp [checkBlock_of_block? hb, hok, hone]

/-! ### Rewriting -/

theorem replaceValue_outcome (g : Graph) (old new : ValueId) :
    (replaceValue old new).Refuses g ∨
      (g.valueAt old).live = true ∧ (g.valueAt new).live = true ∧
      (replaceValue old new).on g = (.ok (), if old = new then g else g.substitute old new) := by
  unfold replaceValue
  by_cases hold : (g.valueAt old).live = true
  · by_cases hnew : (g.valueAt new).live = true
    · refine Or.inr ⟨hold, hnew, ?_⟩
      by_cases hne : old = new
      · subst hne
        simp [checkValue_of_live hold]
      · simp [checkValue_of_live hold, checkValue_of_live hnew, hne]
    · refine Or.inl ⟨.missingValue new, ?_⟩
      simp [checkValue_of_live hold, checkValue_of_not_live hnew]
  · exact Or.inl ⟨.missingValue old, by simp [checkValue_of_not_live hold]⟩

theorem replaceInstruction_outcome (g : Graph) (i : InstId) (operation : Operation)
    (operands : List ValueId) :
    (replaceInstruction i operation operands).Refuses g ∨
      (∃ x, g.instruction? i = some x) ∧ (∀ v ∈ operands, (g.valueAt v).live = true) ∧
      (replaceInstruction i operation operands).on g =
        (.ok (), g.rewriteInstruction i operation operands) := by
  unfold replaceInstruction
  cases hi : g.instruction? i with
  | none => exact Or.inl ⟨.missingInstruction i, by simp [checkInstruction, hi]⟩
  | some x =>
    rcases checkValues_cases g operands with ⟨err, herr⟩ | ⟨hall, hok⟩
    · exact Or.inl ⟨err, by simp [checkInstruction, hi, herr]⟩
    · exact Or.inr ⟨⟨x, rfl⟩, hall, by simp [checkInstruction, hi, hok]⟩

theorem removeInstruction_outcome (g : Graph) (i : InstId) :
    (removeInstruction i).Refuses g ∨
      (∃ x, g.instruction? i = some x ∧
        ∀ v, x.output = some v → (g.valueAt v).isUnused = true) ∧
      (removeInstruction i).on g = (.ok (), g.eraseInstruction i) := by
  unfold removeInstruction
  cases hi : g.instruction? i with
  | none => exact Or.inl ⟨.missingInstruction i, by simp [checkInstruction, hi]⟩
  | some x =>
    cases hout : x.output with
    | none =>
      refine Or.inr ⟨⟨x, rfl, fun v hv => ?_⟩, by simp [checkInstruction, hi, hout]⟩
      rw [hout] at hv
      exact absurd hv (by simp)
    | some v =>
      have hany : (g.slot? v).any (fun y => !y.isUnused) = !(g.valueAt v).isUnused := by
        unfold valueAt
        cases g.slot? v <;> rfl
      by_cases hused : (g.valueAt v).isUnused = true
      · refine Or.inr ⟨⟨x, rfl, fun w hw => ?_⟩, ?_⟩
        · rw [hout] at hw
          exact Option.some.inj hw ▸ hused
        · simp [checkInstruction, hi, hout, hany, hused]
      · exact Or.inl ⟨.stillUsed i v, by simp [checkInstruction, hi, hout, hany, hused]⟩

/-! ### Reshaping -/

theorem split_outcome (g : Graph) (id : BlockId) (index : Nat) :
    (split id index).Refuses g ∨
      ∃ x, g.block? id = some x ∧ index ≤ x.instructions.length ∧
        (split id index).on g = (.ok g.nextBlock, g.splitAt id x index) := by
  unfold split
  cases hb : g.block? id with
  | none => exact Or.inl ⟨.missingBlock id, by simp [checkBlock_of_none hb]⟩
  | some x =>
    by_cases hlen : x.instructions.length < index
    · refine Or.inl ⟨.splitBeyond id index x.instructions.length, ?_⟩
      simp [checkBlock_of_block? hb, hlen]
    · exact Or.inr ⟨x, rfl, by omega, by simp [checkBlock_of_block? hb, hlen]⟩

theorem removeEdge_outcome (g : Graph) (s t : BlockId) :
    (removeEdge s t).Refuses g ∨
      ∃ g', g.unlink? s t = some g' ∧ (removeEdge s t).on g = (.ok (), g') := by
  unfold removeEdge
  cases hs : g.block? s with
  | none => exact Or.inl ⟨.missingBlock s, by simp [checkBlock_of_none hs]⟩
  | some x =>
    cases ht : g.block? t with
    | none =>
      exact Or.inl ⟨.missingBlock t, by simp [checkBlock_of_block? hs, checkBlock_of_none ht]⟩
    | some y =>
      cases hg : g.unlink? s t with
      | none =>
        refine Or.inl ⟨.missingEdge s t, ?_⟩
        simp [checkBlock_of_block? hs, checkBlock_of_block? ht, hg]
      | some g' =>
        exact Or.inr ⟨g', rfl, by simp [checkBlock_of_block? hs, checkBlock_of_block? ht, hg]⟩

theorem inlinePhi_outcome (g : Graph) (v : ValueId) :
    (inlinePhi v).Refuses g ∨
      ∃ p w, (g.valueAt v).livePhi? = some p ∧ p.operands.head? = some w ∧
        (g.valueAt w).live = true ∧
        (inlinePhi v).on g =
          (.ok (), (if v = w then g else g.substitute v w).discardPhi v) := by
  unfold inlinePhi
  cases hw : (g.phi? v).bind (·.operands.head?) with
  | none => exact Or.inl ⟨.noOperand v, by simp [hw]⟩
  | some w =>
    obtain ⟨p, hp, hhead⟩ := Option.bind_eq_some_iff.1 hw
    rcases replaceValue_outcome g v w with ⟨err, herr⟩ | ⟨hv, hlive, hok⟩
    · exact Or.inl ⟨err, by simp [hw, herr]⟩
    · exact Or.inr ⟨p, w, livePhi?_of_live hv hp, hhead, hlive, by simp [hw, hok]⟩

/-- A phi with a live first operand is not refused. -/
theorem inlinePhi_ok {p : Phi} (hp : (g.valueAt v).livePhi? = some p)
    (hhead : p.operands.head? = some w) (hw : (g.valueAt w).live = true) :
    ∃ g', (inlinePhi v).on g = (.ok (), g') := by
  have hv := (Value.livePhi?_eq_some.1 hp).1
  have hbind : (g.phi? v).bind (·.operands.head?) = some w := by
    rw [phi?_of_livePhi? hp]
    exact hhead
  unfold inlinePhi replaceValue
  by_cases hvw : v = w
  · subst hvw
    simp [hbind, checkValue_of_live hv]
  · simp [hbind, checkValue_of_live hv, checkValue_of_live hw, hvw]

/-- The jump at the end of a block, if the block ends in one. -/
def jump? (g : Graph) (id : BlockId) : Option InstId :=
  (g.blockAt id).instructions.getLast?.filter fun i =>
    (g.instruction? i).any (·.operation = .goto)

theorem jump?_eq_some : g.jump? id = some i ↔
    (g.blockAt id).instructions.getLast? = some i ∧
      ∃ x, g.instruction? i = some x ∧ x.operation = .goto := by
  simp [jump?, Option.filter_eq_some_iff, Option.any_eq_true]

theorem dropGoto_outcome (g : Graph) (id : BlockId) :
    (dropGoto id).Refuses g ∨ g.jump? id = none ∧ (dropGoto id).on g = (.ok (), g) ∨
      ∃ i x, g.jump? id = some i ∧ g.instruction? i = some x ∧
        (∀ v, x.output = some v → (g.valueAt v).isUnused = true) ∧
        (dropGoto id).on g = (.ok (), g.eraseInstruction i) := by
  unfold dropGoto
  cases hb : g.block? id with
  | none => exact Or.inl ⟨.missingBlock id, by simp [checkBlock_of_none hb]⟩
  | some b =>
    cases hlast : b.instructions.getLast? with
    | none =>
      refine Or.inr (Or.inl ⟨?_, by simp [checkBlock_of_block? hb, hlast]⟩)
      rw [jump?, blockAt_of_block? hb, hlast]
      rfl
    | some i =>
      have hjump : g.jump? id = Option.filter
          (fun i => (g.instruction? i).any (·.operation = .goto)) (some i) := by
        rw [jump?, blockAt_of_block? hb, hlast]
      by_cases hgoto : (g.instruction? i).any (fun x => decide (x.operation = .goto)) = true
      · rcases removeInstruction_outcome g i with ⟨err, herr⟩ | ⟨⟨x, hx, hunused⟩, hok⟩
        · exact Or.inl ⟨err, by simp [checkBlock_of_block? hb, hlast, hgoto, herr]⟩
        · refine Or.inr (Or.inr ⟨i, x, ?_, hx, hunused, ?_⟩)
          · rw [hjump, Option.filter_some, if_pos hgoto]
          · simp [checkBlock_of_block? hb, hlast, hgoto, hok]
      · refine Or.inr (Or.inl ⟨?_, by simp [checkBlock_of_block? hb, hlast, hgoto]⟩)
        rw [hjump, Option.filter_some, if_neg hgoto]

/-- The edge out of a block is the only one out of it and the only one into its target. -/
structure Mergeable (g : Graph) (id next : BlockId) (n : Block) : Prop where
  hasBlock : g.HasBlock id
  successors : (g.blockAt id).successors = [next]
  ne : next ≠ id
  block? : g.block? next = some n
  predecessors : n.predecessors = [id]

/-- What a merge does once it has found that the blocks can be merged. -/
def mergeInto (id next : BlockId) (phis : List ValueId) : Edit BlockId := do
  phis.forM inlinePhi
  dropGoto id
  change (·.absorb id next)
  return next

theorem Mergeable.on_merge {next : BlockId} {n : Block} (h : Mergeable g id next n) :
    (merge id).on g = (mergeInto id next n.phis).on g := by
  obtain ⟨b, hb⟩ := Option.isSome_iff_exists.1 h.hasBlock
  have hsucc := h.successors
  rw [blockAt_of_block? hb] at hsucc
  unfold merge
  simp [checkBlock_of_block? hb, hsucc, h.ne, checkBlock_of_block? h.block?, h.predecessors,
    mergeInto]

theorem merge_outcome (g : Graph) (id : BlockId) :
    (merge id).Refuses g ∨
      ∃ next n, Mergeable g id next n ∧ (merge id).on g = (mergeInto id next n.phis).on g := by
  unfold merge
  cases hb : g.block? id with
  | none => exact Or.inl ⟨.missingBlock id, by simp [checkBlock_of_none hb]⟩
  | some b =>
    match hsucc : b.successors with
    | [] => exact Or.inl ⟨.noSingleSuccessor id, by simp [checkBlock_of_block? hb, hsucc]⟩
    | _ :: _ :: _ => exact Or.inl ⟨.noSingleSuccessor id, by simp [checkBlock_of_block? hb, hsucc]⟩
    | [next] =>
      by_cases hself : next = id
      · exact Or.inl ⟨.noSingleSuccessor id, by simp [checkBlock_of_block? hb, hsucc, hself]⟩
      · cases hn : g.block? next with
        | none =>
          refine Or.inl ⟨.missingBlock next, ?_⟩
          simp [checkBlock_of_block? hb, hsucc, hself, checkBlock_of_none hn]
        | some n =>
          by_cases hpred : n.predecessors = [id]
          · have hmerge : Mergeable g id next n := by
              refine ⟨hasBlock_of_block? hb, ?_, hself, hn, hpred⟩
              rw [blockAt_of_block? hb]
              exact hsucc
            exact Or.inr ⟨next, n, hmerge, hmerge.on_merge⟩
          · refine Or.inl ⟨.otherPredecessors next id, ?_⟩
            simp [checkBlock_of_block? hb, hsucc, hself, checkBlock_of_block? hn, hpred]

end Graph
end IrAnalysis
