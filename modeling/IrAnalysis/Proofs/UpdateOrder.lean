/-
# Updates in any order

Two updates may reset values that feed each other through a loop, and the second one resets
what the first has just computed.  Still the order does not matter, nor how the seeds are
dealt out: updates made one after the other leave the graph that one update of all their
seeds leaves (`updates_in_any_order`).  So an update can be repeated, and two can be
exchanged.

What an update leaves are the least types above an equation for each value that was reset
(`Solved`).  The second update keeps the equations of the first: what it does not reset reads
nothing that it resets.  And what both leave is least for all seeds together
(`Solved.trans`), since the first one is least whatever stands where the second one resets;
it may even be `top` there (`Above.unbound`).
-/

import IrAnalysis.Proofs.Updating

namespace IrAnalysis
namespace PhiTypes

open IrAnalysis.Graph

variable {h : Hierarchy} {g g' g'' : Graph} {seeds seeds' : List ValueId} {σ : ValueId → Ty}
  {v w : ValueId}

/-- A graph whose lists are in step, with types in normal form, no arrays without dimensions, and
one operand for each pass-through operation. -/
structure Ready (g : Graph) : Prop where
  inStep : InStep g
  types : ProperTypes g
  bounds : g.DimensionedBounds
  oneOperand : ∀ v, g.OneOperand v

/-- **The graph with the least types for what hangs on the seeds**, all other types held. -/
structure Solved (h : Hierarchy) (g : Graph) (seeds : List ValueId) (g' : Graph) : Prop where
  same : SameButTypes g g'
  types : ProperTypes g'
  held : ∀ v, ¬ g.Hangs seeds v → g'.typeAt v = g.typeAt v
  settled : ∀ v, g.Hangs seeds v → g'.typeAt v = g.flow h g'.typeAt v
  least : ∀ σ, Above h g seeds σ → ∀ v, (g'.typeAt v).le h (σ v)

/-- Which seeds there are matters only for what hangs on them. -/
theorem Above.congr (hσ : Above h g seeds σ) (hhangs : ∀ v, g.Hangs seeds v ↔ g.Hangs seeds' v) :
    Above h g seeds' σ :=
  ⟨hσ.normal, fun v hv => hσ.held v (mt (hhangs v).1 hv), fun v hv => hσ.flow v ((hhangs v).2 hv)⟩

/-- The types, with nothing promised of the values `vs`. -/
def unbind (vs : List ValueId) (σ : ValueId → Ty) (v : ValueId) : Ty :=
  if v ∈ vs then .top else σ v

theorem unbind_of_hangs (hg : InStep g) (hv : g.Hangs seeds v) :
    unbind (resetSet g seeds) σ v = .top :=
  if_pos ((mem_resetSet hg).2 hv)

theorem unbind_of_not_hangs (hg : InStep g) (hv : ¬ g.Hangs seeds v) :
    unbind (resetSet g seeds) σ v = σ v :=
  if_neg (mt (mem_resetSet hg).1 hv)

/-- **What lies above the equations for all seeds lies above those for some of them**, also if
nothing is promised of what hangs on the others. -/
theorem Above.unbound (hσ : Above h g (seeds ++ seeds') σ) (hg : InStep g) :
    Above h g seeds (unbind (resetSet g seeds') σ) where
  normal v := by
    by_cases hv : g.Hangs seeds' v
    · rw [unbind_of_hangs hg hv]
      rfl
    · rw [unbind_of_not_hangs hg hv]
      exact hσ.normal v
  held v hno := by
    by_cases hv : g.Hangs seeds' v
    · rw [unbind_of_hangs hg hv]
      exact Ty.le_top h _
    · rw [unbind_of_not_hangs hg hv]
      exact hσ.held v fun hh => (hangs_append.1 hh).elim hno hv
  flow v hhangs := by
    by_cases hv : g.Hangs seeds' v
    · rw [unbind_of_hangs hg hv]
      exact Ty.le_top h _
    · rw [unbind_of_not_hangs hg hv,
        hg.flow_eq_of_not_hangs (fun w hw => unbind_of_not_hangs hg hw) hv]
      exact hσ.flow v (hangs_append.2 (Or.inl hhangs))

theorem Ready.exists_update (hg : Ready g) (seeds : List ValueId) :
    ∃ u, update h (.ok id) g seeds = .ok u ∧ EmptiesQueue h g seeds u.graph ∧
      Solved h g seeds u.graph := by
  obtain ⟨u, hu, hs⟩ := update_spec_of_dimensioned (h := h) hg.inStep hg.bounds hg.types
    (f := id) seeds fun v _ _ _ => Ty.rename_id (hg.types.normal v)
  exact ⟨u, hu, hs.drained, hs.same, hs.types, hs.held,
    fun v hv => hs.settled v hv (hg.oneOperand v), hs.least⟩

namespace Solved

theorem ready (hs : Solved h g seeds g') (hg : Ready g) : Ready g' where
  inStep := hg.inStep.retype hs.same
  types := hs.types
  bounds := hs.same.dimensionedBounds hg.bounds
  oneOperand v := hs.same.oneOperand (hg.oneOperand v)

/-- Without seeds nothing changes. -/
theorem nil (hg : Ready g) : Solved h g [] g := by
  have hno : ∀ v, ¬ g.Hangs [] v := by
    intro v hv
    induction hv with
    | seed hmem _ => exact absurd hmem List.not_mem_nil
    | phi _ _ _ ih => exact ih
    | pass _ _ _ _ _ ih => exact ih
  exact ⟨SameButTypes.refl g, hg.types, fun _ _ => rfl, fun v hv => absurd hv (hno v),
    fun σ hσ v => hσ.held v (hno v)⟩

/-- Least types lie above their own equations. -/
theorem above (hs : Solved h g seeds g') : Above h g seeds g'.typeAt where
  normal := hs.types.normal
  held v hv := by
    rw [hs.held v hv]
    exact Ty.le_refl h _
  flow v hv := by
    rw [← hs.settled v hv]
    exact Ty.le_refl h _

/-- **There is one graph with least types**, whatever the order of the seeds. -/
theorem unique (hs : Solved h g seeds g') (hs' : Solved h g seeds' g'')
    (hseeds : ∀ v, v ∈ seeds ↔ v ∈ seeds') : g'' = g' := by
  have hhangs : ∀ v, g.Hangs seeds v ↔ g.Hangs seeds' v := fun v =>
    ⟨hangs_mono fun w => (hseeds w).1, hangs_mono fun w => (hseeds w).2⟩
  refine (hs.same.symm.trans hs'.same).eq fun v => ?_
  exact Ty.le_antisymm (h := h) (hs'.types.normal v) (hs.types.normal v)
    (hs'.least _ (hs.above.congr hhangs) v)
    (hs.least _ (hs'.above.congr fun w => (hhangs w).symm) v)

/-- What lies above the equations of both updates lies above what the first one leaves, but for
what the second one resets. -/
theorem le_of_above_append (hs : Solved h g seeds g') (hg : Ready g)
    (hσ : Above h g (seeds ++ seeds') σ) (hv : ¬ g.Hangs seeds' v) :
    (g'.typeAt v).le h (σ v) := by
  have hle := hs.least _ (hσ.unbound hg.inStep) v
  rwa [unbind_of_not_hangs hg.inStep hv] at hle

/-- **Two updates leave the least types for the seeds of both.** -/
theorem trans (hs : Solved h g seeds g') (hs' : Solved h g' seeds' g'') (hg : Ready g) :
    Solved h g (seeds ++ seeds') g'' := by
  have hheld : ∀ v, ¬ g.Hangs seeds' v → g''.typeAt v = g'.typeAt v := fun v hv =>
    hs'.held v (mt hs.same.hangs_iff.1 hv)
  refine ⟨hs.same.trans hs'.same, hs'.types, fun v hv => ?_, fun v hv => ?_, fun σ hσ => ?_⟩
  · rw [hangs_append, not_or] at hv
    rw [hheld v hv.2, hs.held v hv.1]
  · by_cases hv' : g.Hangs seeds' v
    · rw [hs'.settled v (hs.same.hangs_iff.2 hv'), hs.same.flow]
    · -- Nothing that the value reads was reset a second time.
      rw [hheld v hv', hs.settled v ((hangs_append.1 hv).resolve_right hv'),
        hg.inStep.flow_eq_of_not_hangs hheld hv']
  · refine hs'.least σ ⟨hσ.normal, fun v hv => ?_, fun v hv => ?_⟩
    · exact hs.le_of_above_append hg hσ (mt hs.same.hangs_iff.2 hv)
    · rw [hs.same.flow]
      exact hσ.flow v (hangs_append.2 (Or.inr (hs.same.hangs_iff.1 hv)))

end Solved

/-- Updates made one after the other, each from its own seeds. -/
def updateAll (h : Hierarchy) : Graph → List (List ValueId) → Checked Graph
  | g, [] => .ok g
  | g, seeds :: rest => do updateAll h (← update h (.ok id) g seeds).graph rest

theorem Ready.exists_updateAll (hg : Ready g) (ss : List (List ValueId)) :
    ∃ g', updateAll h g ss = .ok g' ∧ Solved h g ss.flatten g' := by
  induction ss generalizing g with
  | nil => exact ⟨g, rfl, .nil hg⟩
  | cons seeds ss ih =>
    obtain ⟨u, hu, -, hs⟩ := hg.exists_update (h := h) seeds
    obtain ⟨g', hall, hs'⟩ := ih (hs.ready hg)
    refine ⟨g', ?_, hs.trans hs' hg⟩
    rw [updateAll, hu]
    exact hall

/-- **Updates made one after the other leave the graph that one update of all their seeds
leaves**, in whatever order they are made and however the seeds are dealt out.  An update is not
cut short. -/
theorem updates_in_any_order (hg : g.Reachable) (ht : ProperTypes g) (hb : g.DimensionedBounds)
    (hone : ∀ i x, g.instruction? i = some x → x.operation.passesThrough = true →
      ∃ w, x.operands = [w])
    (ss : List (List ValueId)) (hseeds : ∀ v, v ∈ seeds ↔ ∃ s ∈ ss, v ∈ s) :
    ∃ u, update h (.ok id) g seeds = .ok u ∧ EmptiesQueue h g seeds u.graph ∧
      updateAll h g ss = .ok u.graph := by
  have hready : Ready g := ⟨hg.inStep, ht, hb, .of_instructions hone⟩
  obtain ⟨u, hu, hdrained, hs⟩ := hready.exists_update (h := h) seeds
  obtain ⟨g', hall, hs'⟩ := hready.exists_updateAll (h := h) ss
  have heq : g' = u.graph := hs.unique hs' fun v => by rw [hseeds, List.mem_flatten]
  exact ⟨u, hu, hdrained, heq ▸ hall⟩

/-- The loop, and a second phi that joins the argument with the assumption. -/
def loopAndPhi : Graph :=
  afterAll [.addPhi ⟨1⟩ (.ref (.cls ⟨1⟩) .maybe), .appendOperand ⟨3⟩ ⟨0⟩, .appendOperand ⟨3⟩ ⟨2⟩]
    loop

/-- An update of the second phi alone may come before one of the first phi, which resets both. -/
theorem updates_in_any_order_loopAndPhi : loopAndPhi.Reachable ∧
    resetSet loopAndPhi [⟨3⟩] = [⟨3⟩] ∧ resetSet loopAndPhi [⟨1⟩] = [⟨1⟩, ⟨3⟩, ⟨2⟩] ∧
    ∃ u, update (.ofRoot ⟨0⟩) (.ok id) loopAndPhi [⟨1⟩, ⟨3⟩] = .ok u ∧
      updateAll (.ofRoot ⟨0⟩) loopAndPhi [[⟨3⟩], [⟨1⟩]] = .ok u.graph ∧
      updateAll (.ofRoot ⟨0⟩) loopAndPhi [[⟨1⟩], [⟨3⟩]] = .ok u.graph := by
  have hreach : loopAndPhi.Reachable := Reachable.afterAll loop_reachable _
  have hinst : ∀ {i x}, loopAndPhi.instruction? i = some x → loop.instruction? i = some x := by
    intro i x hx
    have hsame : loopAndPhi.instructions = loop.instructions := by decide
    rwa [instruction?, hsame] at hx
  have hb : loopAndPhi.DimensionedBounds := fun i x hx =>
    (properBounds_loop i x (hinst hx)).dimensioned
  have hone : ∀ i x, loopAndPhi.instruction? i = some x → x.operation.passesThrough = true →
      ∃ w, x.operands = [w] := by
    intro i x hx hpass
    rcases loop_instruction? (hinst hx) with rfl | rfl
    · exact absurd hpass (by decide)
    · exact ⟨⟨1⟩, rfl⟩
  have hall : ∀ ss : List (List ValueId), (∀ v, v ∈ [⟨1⟩, ⟨3⟩] ↔ ∃ s ∈ ss, v ∈ s) → _ :=
    updates_in_any_order (h := .ofRoot ⟨0⟩) hreach (.of_values (by decide)) hb hone
  obtain ⟨u, hu, -, hsecond⟩ := hall [[⟨3⟩], [⟨1⟩]] (by simp [or_comm])
  obtain ⟨u', hu', -, hfirst⟩ := hall [[⟨1⟩], [⟨3⟩]] (by simp)
  obtain rfl := Except.ok.inj (hu.symm.trans hu')
  exact ⟨hreach, by decide, by decide, u, hu, hsecond, hfirst⟩

end PhiTypes
end IrAnalysis
