/-
# An update gives what hangs on the seeds its least types

The values that an update resets (`resetSet`) are those that hang on the seeds, and
their types become the least solution of the equations of phis and pass-through
results, all other types held fixed (`update_least_solution`).  Neither the climb
nor the checks at its end fail: no type moves down, no phi stays at `bottom` beside
an operand that is not, and a phi that was not reset is not changed by the renaming
(`update_spec`).
-/

import IrAnalysis.Proofs.LockStep
import IrAnalysis.Proofs.Recomputing
import Mathlib.Algebra.BigOperators.Ring.Finset

namespace IrAnalysis
namespace PhiTypes

open IrAnalysis.Graph

variable {h : Hierarchy} {g : Graph} {seeds : List ValueId} {l : ResetList} {σ : ValueId → Ty}
  {u v w : ValueId}

/-- All types are in normal form and name no array without dimensions. -/
structure ProperTypes (g : Graph) : Prop where
  normal : ∀ v, (g.typeAt v).IsNormal
  proper : ∀ v, (g.typeAt v).IsProper

/-- After a reset the types are ready to climb. -/
theorem ResetSpec.climbing {r : Reset} (hr : ResetSpec g seeds r l) (hg : InStep g)
    (ht : ProperTypes g) : Climbing h g seeds ⟨r.graph, l.phis, .empty⟩ := by
  have htype : ∀ v, r.graph.typeAt v = .bottom ∨ r.graph.typeAt v = g.typeAt v := by
    intro v
    by_cases hv : g.Hangs seeds v
    · exact Or.inl ((hr.types v).1 hv)
    · exact Or.inr ((hr.types v).2 hv)
  refine ⟨hr.same, fun v hv => ((hr.phis v).1 hv).1, fun v hv => (hr.types v).2 hv, ?_, ?_, ?_, ?_,
    ?_⟩
  · intro v
    rcases htype v with he | he
    · exact he ▸ rfl
    · exact he ▸ ht.normal v
  · intro v
    rcases htype v with he | he
    · exact he ▸ rfl
    · exact he ▸ ht.proper v
  · intro v hv
    show (r.graph.typeAt v).le h _
    rw [(hr.types v).1 hv]
    exact Ty.bottom_le h _
  · intro v hv hone
    rcases hg.hangs_cases hv with ⟨p, hp⟩ | ⟨x, w, hp, hx, hpass, hmem, hw⟩
    · exact Or.inl ((hr.phis v).2 ⟨hv, p, hp⟩)
    · -- The one operand was reset as well, and `bottom` flows out of `bottom`.
      obtain ⟨w', hops⟩ := hone x hx hpass
      have hww : w = w' := by
        rw [hops] at hmem
        exact List.mem_singleton.1 hmem
      refine Or.inr ?_
      rw [flow_pass hp hx hpass hops, ← hww]
      show r.graph.typeAt v = x.operation.outputType h (r.graph.typeAt w)
      rw [(hr.types v).1 hv, (hr.types w).1 hw, Operation.outputType_bottom]
  · intro σ hσ v
    show (r.graph.typeAt v).le h (σ v)
    by_cases hv : g.Hangs seeds v
    · rw [(hr.types v).1 hv]
      exact Ty.bottom_le h _
    · rw [(hr.types v).2 hv]
      exact hσ.held v hv

/-- **The steps that a recomputation is allowed are enough.** -/
theorem climb_le_stepBound {r : Reset} (hr : ResetSpec g seeds r l) :
    climb h g ⟨r.graph, l.phis, .empty⟩ ≤ stepBound h r.graph l.phis := by
  have hsum : ∑ k ∈ Finset.range g.values.length,
      (h.height + 3 - (r.graph.typeAt ⟨k⟩).rank h) * g.reads ⟨k⟩ ≤
        (h.height + 3) * g.readCount := by
    rw [readCount_eq, Finset.mul_sum]
    refine Finset.sum_le_sum fun k _ => Nat.mul_le_mul_right _ ?_
    omega
  have hgrow : (h.height + 3) * g.readCount ≤ (h.height + 4) * (g.readCount + 1) :=
    Nat.mul_le_mul (by omega) (by omega)
  rw [climb, stepBound, hr.same.readCount]
  refine Nat.le_trans (Nat.add_le_add_left (Nat.le_trans hsum hgrow) _) ?_
  exact Nat.le_mul_of_pos_right _ (Nat.succ_pos _)

/-- The recomputation stops because nothing waits in the queue any more, and not because its steps
are used up. -/
def EmptiesQueue (h : Hierarchy) (g : Graph) (seeds : List ValueId) (g' : Graph) : Prop :=
  ∀ l, (reset g seeds).list = some l → ∃ last,
    (⟨(reset g seeds).graph, l.phis, .empty⟩ : Recomputation).run h
      (stepBound h (reset g seeds).graph l.phis) = .ok last ∧ last.queue = [] ∧ last.graph = g'

/-- What an update leaves: types that climbed until the queue was empty. -/
structure UpdateSpec (h : Hierarchy) (g : Graph) (seeds : List ValueId) (g' : Graph) : Prop where
  same : SameButTypes g g'
  types : ProperTypes g'
  held : ∀ v, ¬ g.Hangs seeds v → g'.typeAt v = g.typeAt v
  settled : ∀ v, g.Hangs seeds v → g.OneOperand v → g'.typeAt v = g.flow h g'.typeAt v
  least : ∀ σ, Above h g seeds σ → ∀ v, (g'.typeAt v).le h (σ v)
  drained : EmptiesQueue h g seeds g'

/-- A phi at the join of its operands is not left at `bottom` beside another type. -/
theorem isUnresolved_eq_false {p : Phi} (hp : (g.valueAt v).livePhi? = some p)
    (hnormal : ∀ w, (g.typeAt w).IsNormal)
    (hjoin : g.typeAt v = Ty.joinAll h (p.operands.map g.typeAt)) : isUnresolved g v = false := by
  rw [isUnresolved, Bool.and_eq_false_imp, phi?_of_livePhi? hp]
  intro hbottom
  have hall : ∀ t ∈ p.operands.map g.typeAt, t.le h .bottom := by
    refine Ty.joinAll_le_iff.1 ?_
    rw [← hjoin, Ty.isBottom_iff.1 hbottom]
    exact Ty.le_refl h _
  rw [Option.any_some, List.any_eq_false]
  intro w hw
  have hwb := (Ty.le_bottom_iff (hnormal w)).1 (hall _ (List.mem_map_of_mem hw))
  simp [hwb, Ty.isBottom]

/-- The phis that were not reset keep their types under the renaming. -/
theorem allScheduled_eq {f : ClassId → ClassId} {affected : List ValueId}
    {vs : List (ValueId × Value)} (hproper : ∀ q ∈ vs, q.2.type.IsProper)
    (hkeep : ∀ q ∈ vs, q.1 ∉ affected → q.2.type.rename f = q.2.type) :
    allScheduled (.ok f) affected vs = .ok true := by
  induction vs with
  | nil => rfl
  | cons q vs ih =>
    obtain ⟨v, x⟩ := q
    rw [List.forall_mem_cons] at hproper hkeep
    have hrest := ih hproper.2 hkeep.2
    rw [allScheduled]
    by_cases hv : v ∈ affected
    · rw [if_pos hv]
      exact hrest
    · rw [if_neg hv, Ty.tryRename_ok f hproper.1]
      have hsame : x.type.rename f = x.type := hkeep.1 hv
      simp only [bind, Except.bind, hsame, if_true]
      exact hrest

theorem mem_liveValues {x : Value} (hx : (v, x) ∈ g.liveValues) :
    g.valueAt v = x ∧ x.live = true := by
  simp only [liveValues, List.mem_filterMap, Prod.exists, List.mem_zipIdx_iff_getElem?] at hx
  obtain ⟨y, k, hy, hsome⟩ := hx
  split_ifs at hsome with hlive
  · obtain ⟨rfl, rfl⟩ := Prod.mk.inj (Option.some.inj hsome)
    exact ⟨valueAt_of_slot? hy, hlive⟩

section Drained

variable {last : Recomputation}

theorem Climbing.settled_of_drained (hr : Climbing h g seeds last) (hempty : last.queue = [])
    (hv : g.Hangs seeds v) (hone : g.OneOperand v) :
    last.graph.typeAt v = g.flow h last.graph.typeAt v := by
  rcases hr.settled v hv hone with hmem | heq
  · rw [hempty] at hmem
    exact absurd hmem List.not_mem_nil
  · exact heq

theorem oneOperand_of_livePhi? {p : Phi} (hp : (g.valueAt v).livePhi? = some p) :
    g.OneOperand v := by
  intro x hx
  rw [origin?, Value.definer?_of_livePhi? hp] at hx
  exact absurd hx (by simp)

theorem Climbing.livePhi? (hr : Climbing h g seeds last) (v : ValueId) :
    (last.graph.valueAt v).livePhi? = (g.valueAt v).livePhi? :=
  hr.same.livePhi? v

/-- No phi is left at `bottom` beside an operand that is not. -/
theorem Climbing.unresolved_eq_nil (hr : Climbing h g seeds last) (hempty : last.queue = [])
    {vs : List ValueId}
    (hvs : ∀ v ∈ vs, g.Hangs seeds v ∧ ∃ p, (g.valueAt v).livePhi? = some p) :
    vs.filter (isUnresolved last.graph) = [] := by
  refine List.filter_eq_nil_iff.2 fun v hv => ?_
  obtain ⟨hhangs, p, hp⟩ := hvs v hv
  have hjoin := hr.settled_of_drained hempty hhangs (oneOperand_of_livePhi? hp)
  rw [flow_phi hp] at hjoin
  rw [isUnresolved_eq_false ((hr.livePhi? v).trans hp) hr.normal hjoin]
  exact Bool.false_ne_true

/-- No phi that the renaming changes was left out. -/
theorem Climbing.allScheduled_eq (hr : Climbing h g seeds last) {f : ClassId → ClassId}
    {affected : List ValueId}
    (haffected : ∀ v p, (g.valueAt v).livePhi? = some p → g.Hangs seeds v → v ∈ affected)
    (hkeep : ∀ v p, (g.valueAt v).livePhi? = some p → ¬ g.Hangs seeds v →
      (g.typeAt v).rename f = g.typeAt v) :
    allScheduled (.ok f) affected last.graph.livePhis = .ok true := by
  refine PhiTypes.allScheduled_eq (fun q hq => ?_) fun q hq hnot => ?_
  · obtain ⟨hval, -⟩ := mem_liveValues (List.mem_of_mem_filter hq)
    rw [← hval, ← typeAt_eq]
    exact hr.proper q.1
  · obtain ⟨hval, hqlive⟩ := mem_liveValues (List.mem_of_mem_filter hq)
    obtain ⟨p, hp⟩ := Option.isSome_iff_exists.1 (List.mem_filter.1 hq).2
    have hqp : (g.valueAt q.1).livePhi? = some p := by
      rw [← hr.livePhi?, hval, Value.livePhi?, if_pos hqlive, hp]
    have hhangs : ¬ g.Hangs seeds q.1 := fun hh => hnot (haffected q.1 p hqp hh)
    rw [← hval, ← typeAt_eq, hr.held q.1 hhangs]
    exact hkeep q.1 p hqp hhangs

end Drained

/-- **An update fails in none of its checks**, for a renaming that changes no phi that is not
reset. -/
theorem update_spec_of_dimensioned (hg : InStep g) (hb : g.DimensionedBounds) (ht : ProperTypes g)
    {f : ClassId → ClassId} (seeds : List ValueId)
    (hkeep : ∀ v p, (g.valueAt v).livePhi? = some p → ¬ g.Hangs seeds v →
      (g.typeAt v).rename f = g.typeAt v) :
    ∃ u, update h (.ok f) g seeds = .ok u ∧ UpdateSpec h g seeds u.graph := by
  rcases reset_spec hg seeds with ⟨hnone, hno⟩ | ⟨l, hl, hr⟩
  · refine ⟨⟨g, .empty, []⟩, ?_, SameButTypes.refl g, ht, fun _ _ => rfl,
      fun v hv => absurd hv (hno v), fun σ hσ v => hσ.held v (hno v), fun l hl => ?_⟩
    · rw [update, hnone]
    · rw [hnone] at hl
      exact absurd hl (by simp)
  · obtain ⟨last, hrun, hclimb, hempty⟩ := (hr.climbing (h := h) hg ht).run hg hb
      (climb_le_stepBound hr)
    have hunresolved := hclimb.unresolved_eq_nil hempty fun v => (hr.phis v).1
    have hscheduled := hclimb.allScheduled_eq
      (fun v p hp hv => hr.affected ▸ (hr.phis v).2 ⟨hv, p, hp⟩) hkeep
    refine ⟨⟨last.graph, last.affected, (reset g seeds).affected⟩, ?_, hclimb.same,
      ⟨hclimb.normal, hclimb.proper⟩, hclimb.held,
      fun v hv hone => hclimb.settled_of_drained hempty hv hone, hclimb.least, fun l' hl' => ?_⟩
    · simp only [update, hl, recompute, hrun, bind, Except.bind, hunresolved, List.isEmpty_nil,
        Bool.not_true, Bool.false_eq_true, if_false, hscheduled, if_true, pure, Except.pure]
    · obtain rfl := Option.some.inj (hl.symm.trans hl')
      exact ⟨last, hrun, hempty, rfl⟩

theorem update_spec (hg : InStep g) (hb : g.ProperBounds) (ht : ProperTypes g)
    {f : ClassId → ClassId} (seeds : List ValueId)
    (hkeep : ∀ v p, (g.valueAt v).livePhi? = some p → ¬ g.Hangs seeds v →
      (g.typeAt v).rename f = g.typeAt v) :
    ∃ u, update h (.ok f) g seeds = .ok u ∧ UpdateSpec h g seeds u.graph :=
  update_spec_of_dimensioned hg hb.dimensioned ht seeds hkeep

/-! ### The least solution -/

/-- The values that an update resets. -/
def resetSet (g : Graph) (seeds : List ValueId) : List ValueId :=
  match (reset g seeds).list with
  | none => []
  | some l => l.phis ++ l.passThroughs

theorem mem_resetSet (hg : InStep g) : v ∈ resetSet g seeds ↔ g.Hangs seeds v := by
  unfold resetSet
  rcases reset_spec hg seeds with ⟨hnone, hno⟩ | ⟨l, hl, hr⟩
  · rw [hnone]
    exact iff_of_false List.not_mem_nil (hno v)
  · rw [hl, List.mem_append, hr.phis, hr.passThroughs]
    constructor
    · rintro (⟨hv, -⟩ | ⟨hv, -⟩)
      · exact hv
      · exact hv
    · intro hv
      rcases hg.hangs_cases hv with hp | ⟨x, w, -, hx, -⟩
      · exact Or.inl ⟨hv, hp⟩
      · obtain ⟨i, hi, -⟩ := Option.bind_eq_some_iff.1 hx
        exact Or.inr ⟨hv, i, hi⟩

/-- **Types that solve the equations** of the live phis and pass-through results among `vs`, and
leave all other types as they are in the graph. -/
structure Solves (h : Hierarchy) (g : Graph) (vs : List ValueId) (σ : ValueId → Ty) : Prop where
  held : ∀ v, v ∉ vs → σ v = g.typeAt v
  /-- A phi has the join of its operands. -/
  phi : ∀ v x p, v ∈ vs → g.value? v = some x → x.phi? = some p →
    σ v = Ty.joinAll h (p.operands.map σ)
  /-- The result of a pass-through operation has the type that the operation makes of its
  operand's. -/
  pass : ∀ v i x w, v ∈ vs → g.instruction? i = some x → x.output = some v →
    x.operation.passesThrough = true → x.operands = [w] → σ v = x.operation.outputType h (σ w)

namespace Solves

/-- What flows into a value that is solved for is the type that it has. -/
theorem flow_eq (hσ : Solves h g (resetSet g seeds) σ) (hg : InStep g)
    (hone : ∀ v, g.OneOperand v) (hv : g.Hangs seeds v) : g.flow h σ v = σ v := by
  have hmem := (mem_resetSet hg).2 hv
  rcases hg.hangs_cases hv with ⟨p, hp⟩ | ⟨x, w, hp, hx, hpass, -, -⟩
  · rw [flow_phi hp]
    rw [livePhi?_eq] at hp
    obtain ⟨x, hx, hxp⟩ := Option.bind_eq_some_iff.1 hp
    exact (hσ.phi v x p hmem hx hxp).symm
  · obtain ⟨w, hops⟩ := hone v x hx hpass
    rw [flow_pass hp hx hpass hops]
    obtain ⟨i, hi, hix⟩ := Option.bind_eq_some_iff.1 hx
    exact (hσ.pass v i x w hmem hix (hg.output_of_definer? hi hix) hpass hops).symm

/-- The types of a solution are in normal form if those that are held are. -/
theorem isNormal (hσ : Solves h g (resetSet g seeds) σ) (hg : InStep g)
    (hone : ∀ v, g.OneOperand v) (ht : ProperTypes g) (v : ValueId) : (σ v).IsNormal := by
  have hphi : ∀ {v p}, g.Hangs seeds v → (g.valueAt v).livePhi? = some p → (σ v).IsNormal := by
    intro v p hv hp
    rw [← hσ.flow_eq hg hone hv, flow_phi hp]
    exact Ty.joinAll_isNormal h _
  by_cases hv : g.Hangs seeds v
  · induction hv with
    | seed hmem hp => exact hphi (.seed hmem hp) hp
    | phi hread hp hmem _ => exact hphi (.phi hread hp hmem) hp
    | @pass u v i x hread hx hpass hmem hout ih =>
      have hdef := hg.definer?_of_output hx hout
      obtain ⟨w, hops⟩ := hone v x (by rw [origin?, hdef]; exact hx) hpass
      have huw : u = w := by
        rw [hops] at hmem
        exact List.mem_singleton.1 hmem
      have hin := (mem_resetSet hg).2 (.pass hread hx hpass hmem hout)
      rw [hσ.pass v i x w hin hx hout hpass hops, ← huw]
      exact Operation.outputType_isNormal ih
  · rw [hσ.held v fun hmem => hv ((mem_resetSet hg).1 hmem)]
    exact ht.normal v

theorem above (hσ : Solves h g (resetSet g seeds) σ) (hg : InStep g)
    (hone : ∀ v, g.OneOperand v) (ht : ProperTypes g) : Above h g seeds σ where
  normal := hσ.isNormal hg hone ht
  held v hv := by
    rw [hσ.held v fun hmem => hv ((mem_resetSet hg).1 hmem)]
    exact Ty.le_refl h _
  flow v hv := by
    rw [hσ.flow_eq hg hone hv]
    exact Ty.le_refl h _

end Solves

/-- The types that an update leaves solve the equations. -/
theorem UpdateSpec.solves {g' : Graph} (hs : UpdateSpec h g seeds g') (hg : InStep g)
    (hone : ∀ v, g.OneOperand v) : Solves h g (resetSet g seeds) g'.typeAt where
  held v hv := hs.held v fun hh => hv ((mem_resetSet hg).2 hh)
  phi v x p hv hx hp := by
    have hphi : (g.valueAt v).livePhi? = some p := by
      rw [livePhi?_eq, hx]
      exact hp
    rw [hs.settled v ((mem_resetSet hg).1 hv) (hone v), flow_phi hphi]
  pass v i x w hv hx hout hpass hops := by
    have hdef := hg.definer?_of_output hx hout
    have hphi := Value.livePhi?_of_definer? hdef
    have horigin : g.origin? v = some x := by
      rw [origin?, hdef]
      exact hx
    rw [hs.settled v ((mem_resetSet hg).1 hv) (hone v), flow_pass hphi horigin hpass hops]

theorem ProperTypes.of_values (hx : ∀ x ∈ g.values, x.type.IsNormal ∧ x.type.IsProper) :
    ProperTypes g := by
  have htype : ∀ v, (g.typeAt v).IsNormal ∧ (g.typeAt v).IsProper := by
    intro v
    unfold typeAt slot?
    rcases hv : g.values[v.index]? with _ | x
    · exact ⟨rfl, rfl⟩
    · exact hx x (List.mem_of_getElem? hv)
  exact ⟨fun v => (htype v).1, fun v => (htype v).2⟩

/-- **An update without renaming gives the phis and pass-through results that hang on the seeds
the least types that solve their equations**, and leaves everything else as it was.  It stops by
itself and none of its checks fails: no type moves down, and no phi is left at `bottom` beside an
operand that is not. -/
theorem update_least_solution (hg : g.Reachable) (ht : ProperTypes g) (hb : g.ProperBounds)
    (hone : ∀ i x, g.instruction? i = some x → x.operation.passesThrough = true →
      ∃ w, x.operands = [w]) (seeds : List ValueId) :
    ∃ u, update h (.ok id) g seeds = .ok u ∧ EmptiesQueue h g seeds u.graph ∧
      SameButTypes g u.graph ∧ (∀ v, v ∉ resetSet g seeds → u.graph.typeAt v = g.typeAt v) ∧
      Solves h g (resetSet g seeds) u.graph.typeAt ∧
      ∀ σ, Solves h g (resetSet g seeds) σ → ∀ v, (u.graph.typeAt v).le h (σ v) := by
  have hstep := hg.inStep
  have hone' : ∀ v, g.OneOperand v := by
    intro v x hx hpass
    obtain ⟨i, -, hi⟩ := Option.bind_eq_some_iff.1 hx
    exact hone i x hi hpass
  obtain ⟨u, hu, hs⟩ := update_spec (h := h) hstep hb ht (f := id) seeds
    fun v _ _ _ => Ty.rename_id (ht.normal v)
  have hsolves := hs.solves hstep hone'
  exact ⟨u, hu, hs.drained, hs.same, hsolves.held, hsolves,
    fun σ hσ => hs.least σ (hσ.above hstep hone' ht)⟩

/-- A loop: a value flows into a phi, and the phi through an assumption back into itself. -/
def loop : Graph :=
  afterAll [.addBlock, .addBlock, .addEdge ⟨0⟩ ⟨1⟩, .addEdge ⟨1⟩ ⟨1⟩,
    .addInstruction ⟨0⟩ (.argument 0) [] (some (.ref (.cls ⟨1⟩) .maybe)),
    .addPhi ⟨1⟩ (.ref (.cls ⟨1⟩) .maybe),
    .addInstruction ⟨1⟩ (.assume .nonNull) [⟨1⟩] (some (.ref (.cls ⟨1⟩) .nonNull)),
    .appendOperand ⟨1⟩ ⟨0⟩, .appendOperand ⟨1⟩ ⟨2⟩] (Graph.empty none)

theorem loop_instruction? {i : InstId} {x : Instruction} (hx : loop.instruction? i = some x) :
    x = ⟨⟨0⟩, .argument 0, [], some ⟨0⟩⟩ ∨ x = ⟨⟨1⟩, .assume .nonNull, [⟨1⟩], some ⟨2⟩⟩ := by
  have hmem : some x ∈ loop.instructions :=
    List.mem_of_getElem? (Option.join_eq_some_iff.1 hx)
  have hall : loop.instructions = [some ⟨⟨0⟩, .argument 0, [], some ⟨0⟩⟩,
      some ⟨⟨1⟩, .assume .nonNull, [⟨1⟩], some ⟨2⟩⟩] := by decide
  rw [hall] at hmem
  simpa using hmem

theorem loop_reachable : loop.Reachable := Reachable.afterAll (.empty none) _

theorem properTypes_loop : ProperTypes loop := .of_values (by decide)

theorem properBounds_loop : loop.ProperBounds := by
  intro i x hx bound hbound
  rcases loop_instruction? hx with rfl | rfl
  · exact absurd hbound (by simp)
  · exact absurd hbound (by simp)

/-- In a loop both the phi and the assumption are reset, and their types solve the equations. -/
theorem update_least_solution_loop :
    resetSet loop [⟨1⟩] = [⟨1⟩, ⟨2⟩] ∧ ∃ u, update (.ofRoot ⟨0⟩) (.ok id) loop [⟨1⟩] = .ok u ∧
      Solves (.ofRoot ⟨0⟩) loop [⟨1⟩, ⟨2⟩] u.graph.typeAt := by
  have hreset : resetSet loop [⟨1⟩] = [⟨1⟩, ⟨2⟩] := by decide
  have hone : ∀ i x, loop.instruction? i = some x → x.operation.passesThrough = true →
      ∃ w, x.operands = [w] := by
    intro i x hx hpass
    rcases loop_instruction? hx with rfl | rfl
    · exact absurd hpass (by decide)
    · exact ⟨⟨1⟩, rfl⟩
  obtain ⟨u, hu, -, -, -, hsolves, -⟩ := update_least_solution (h := .ofRoot ⟨0⟩) loop_reachable
    properTypes_loop properBounds_loop hone [⟨1⟩]
  exact ⟨hreset, u, hu, hreset ▸ hsolves⟩

end PhiTypes
end IrAnalysis
