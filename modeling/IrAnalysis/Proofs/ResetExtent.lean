/-
# How far a reset goes

A reset works through two queues, with a list of what was seen for each of them.  What it
sets to `bottom` is the least set of live values that holds the live phis among the seeds
and, with each member, the live phis that read it and the results of the live
pass-through instructions that do (`reset_reaches_least`).  The members are listed once
each, the phis apart from the others, and no other type changes.  Only seeds without a live
phi give no list at all (`reset_list_eq_none`).

The least set is `Graph.Hangs`: it is closed, and every closed set holds it, by induction on
how a value came to hang on the seeds (`InStep.isLeast_hangs`).
-/

import IrAnalysis.Proofs.UpdateOrder

namespace IrAnalysis
namespace Graph

variable {g : Graph} {seeds : List ValueId} {R : Set ValueId} {v : ValueId}

/-- **A set of live values that holds the seed phis and what depends on its members.** -/
structure ClosedFrom (g : Graph) (seeds : List ValueId) (R : Set ValueId) : Prop where
  live : ∀ v ∈ R, ∃ x, g.value? v = some x
  seed : ∀ v ∈ seeds, g.isLivePhi v = true → v ∈ R
  /-- It holds each live phi that reads a member. -/
  phi : ∀ v ∈ R, ∀ u x p, g.value? u = some x → x.phi? = some p → v ∈ p.operands → u ∈ R
  /-- It holds the output of each live pass-through instruction that reads a member. -/
  pass : ∀ v ∈ R, ∀ i x u, g.instruction? i = some x → x.operation.passesThrough = true →
    v ∈ x.operands → x.output = some u → u ∈ R

theorem ClosedFrom.mem_of_hangs (hR : g.ClosedFrom seeds R) (hv : g.Hangs seeds v) : v ∈ R := by
  induction hv with
  | seed hmem hp => exact hR.seed _ hmem (isLivePhi_iff.2 ⟨_, hp⟩)
  | phi _ hp hread ih =>
    rw [livePhi?_eq] at hp
    obtain ⟨x, hx, hxp⟩ := Option.bind_eq_some_iff.1 hp
    exact hR.phi _ ih _ x _ hx hxp hread
  | pass _ hx hpass hread hout ih => exact hR.pass _ ih _ _ _ hx hpass hread hout

/-- **What hangs on the seeds is the least closed set.** -/
theorem InStep.isLeast_hangs (hg : InStep g) (seeds : List ValueId) :
    IsLeast {R | g.ClosedFrom seeds R} {v | g.Hangs seeds v} := by
  refine ⟨⟨fun v hv => ?_, fun v hv hlive => ?_, fun v hv u x p hx hp hread => ?_,
    fun v hv i x u hx hpass hread hout => .pass hv hx hpass hread hout⟩,
    fun R hR v hv => hR.mem_of_hangs hv⟩
  · refine ⟨g.valueAt v, ?_⟩
    rw [value?_eq, if_pos (hg.live_of_hangs hv)]
  · obtain ⟨p, hp⟩ := isLivePhi_iff.1 hlive
    exact .seed hv hp
  · refine .phi hv (p := p) ?_ hread
    rw [livePhi?_eq, hx]
    exact hp

/-- What hangs on the seeds and is no phi is the output of a live pass-through instruction. -/
theorem InStep.passOutput_iff (hg : InStep g) (hv : g.Hangs seeds v) :
    (∃ i, (g.valueAt v).definer? = some i) ↔ ∃ i x, g.instruction? i = some x ∧
      x.operation.passesThrough = true ∧ x.output = some v := by
  constructor
  · rintro ⟨i, hi⟩
    rcases hg.hangs_cases hv with ⟨p, hp⟩ | ⟨x, w, -, hx, hpass, -, -⟩
    · rw [Value.definer?_of_livePhi? hp] at hi
      exact absurd hi (by simp)
    · rw [origin?, hi] at hx
      exact ⟨i, x, hx, hpass, hg.output_of_definer? hi hx⟩
  · rintro ⟨i, x, hx, -, hout⟩
    exact ⟨i, hg.definer?_of_output hx hout⟩

end Graph

namespace PhiTypes

open IrAnalysis.Graph

variable {g : Graph} {seeds : List ValueId} {l : ResetList}

/-- **What a reset leaves that sets the values of `R`.** -/
structure SetsExactly (g : Graph) (R : Set ValueId) (r : Reset) (l : ResetList) : Prop where
  same : SameButTypes g r.graph
  bottom : ∀ v ∈ R, r.graph.typeAt v = .bottom
  kept : ∀ v, v ∉ R → r.graph.typeAt v = g.typeAt v
  affected : ∀ v, v ∈ r.affected ↔ v ∈ R ∧ g.isLivePhi v = true
  /-- No value is listed twice, neither in one list nor in both. -/
  once : (l.phis ++ l.passThroughs).Nodup
  phis : ∀ v, v ∈ l.phis ↔ v ∈ R ∧ g.isLivePhi v = true
  passThroughs : ∀ v, v ∈ l.passThroughs ↔ v ∈ R ∧ ∃ i x, g.instruction? i = some x ∧
    x.operation.passesThrough = true ∧ x.output = some v

theorem reset_list_eq_none (g : Graph) (seeds : List ValueId) :
    (reset g seeds).list = none ↔ ∀ v ∈ seeds, g.isLivePhi v = false := by
  have hempty : (ValueId.ascending (seeds.filter g.isLivePhi)).isEmpty = true ↔
      ∀ v ∈ seeds, g.isLivePhi v = false := by
    simp only [List.isEmpty_iff, List.eq_nil_iff_forall_not_mem, ValueId.mem_ascending,
      List.mem_filter, not_and, Bool.not_eq_true]
  rw [← hempty]
  unfold reset
  by_cases hnone : (ValueId.ascending (seeds.filter g.isLivePhi)).isEmpty = true
  · rw [if_pos hnone]
    exact iff_of_true rfl hnone
  · rw [if_neg hnone]
    exact iff_of_false (by simp) hnone

theorem ResetSpec.setsExactly {r : Reset} (hr : ResetSpec g seeds r l) (hg : InStep g) :
    SetsExactly g {v | g.Hangs seeds v} r l := by
  have hphis : ∀ v, v ∈ l.phis ↔ v ∈ {v | g.Hangs seeds v} ∧ g.isLivePhi v = true := by
    intro v
    rw [hr.phis, isLivePhi_iff]
    rfl
  refine ⟨hr.same, fun v => (hr.types v).1, fun v => (hr.types v).2, ?_, ?_, hphis, fun v => ?_⟩
  · rw [hr.affected]
    exact hphis
  · refine List.nodup_append.2 ⟨hr.nodupPhis, hr.nodupPasses, ?_⟩
    rintro v hv w hw rfl
    obtain ⟨-, p, hp⟩ := (hr.phis v).1 hv
    obtain ⟨-, i, hi⟩ := (hr.passThroughs v).1 hw
    rw [Value.definer?_of_livePhi? hp] at hi
    exact absurd hi (by simp)
  · rw [hr.passThroughs]
    exact and_congr_right fun hv => hg.passOutput_iff hv

/-- **A reset sets to `bottom` the least set of live values that holds the seed phis and what
depends on its members**, and nothing besides.  It lists each of them once and gives out the phis
among them as affected.  Where no seed is a live phi there is nothing to list, and the graph stays
as it is. -/
theorem reset_reaches_least (hg : g.Reachable) (seeds : List ValueId) :
    ((reset g seeds).list = none ↔ ∀ v ∈ seeds, g.isLivePhi v = false) ∧
      ((reset g seeds).list = none → (reset g seeds).graph = g ∧ (reset g seeds).affected = []) ∧
      ∀ l, (reset g seeds).list = some l →
        ∃ R, IsLeast {R | g.ClosedFrom seeds R} R ∧ SetsExactly g R (reset g seeds) l := by
  have hstep := hg.inStep
  refine ⟨reset_list_eq_none g seeds, fun hnone => ?_, fun l hl =>
    ⟨_, hstep.isLeast_hangs seeds, ?_⟩⟩
  · rcases reset_spec hstep seeds with ⟨heq, -⟩ | ⟨l, hl, -⟩
    · rw [heq]
      exact ⟨rfl, rfl⟩
    · rw [hnone] at hl
      exact absurd hl (by simp)
  · rcases reset_spec hstep seeds with ⟨heq, -⟩ | ⟨l', hl', hr⟩
    · rw [heq] at hl
      exact absurd hl (by simp)
    · obtain rfl := Option.some.inj (hl'.symm.trans hl)
      exact hr.setsExactly hstep

/-- The loop and its second phi, reset from the first one: the second phi is reached through the
assumption alone, and seeds that are no phis are passed over. -/
theorem reset_reaches_least_loopAndPhi : loopAndPhi.Reachable ∧
    (reset loopAndPhi [⟨0⟩, ⟨1⟩, ⟨9⟩]).list = some ⟨[⟨1⟩, ⟨3⟩], [⟨2⟩]⟩ ∧
    (∃ R, IsLeast {R | loopAndPhi.ClosedFrom [⟨0⟩, ⟨1⟩, ⟨9⟩] R} R ∧
      SetsExactly loopAndPhi R (reset loopAndPhi [⟨0⟩, ⟨1⟩, ⟨9⟩]) ⟨[⟨1⟩, ⟨3⟩], [⟨2⟩]⟩) ∧
    (reset loopAndPhi [⟨0⟩, ⟨2⟩]).graph = loopAndPhi := by
  have hreach : loopAndPhi.Reachable := Reachable.afterAll loop_reachable _
  have hlist : (reset loopAndPhi [⟨0⟩, ⟨1⟩, ⟨9⟩]).list = some ⟨[⟨1⟩, ⟨3⟩], [⟨2⟩]⟩ := rfl
  obtain ⟨-, -, hall⟩ := reset_reaches_least hreach [⟨0⟩, ⟨1⟩, ⟨9⟩]
  obtain ⟨hnone, hkept, -⟩ := reset_reaches_least hreach [⟨0⟩, ⟨2⟩]
  exact ⟨hreach, hlist, hall _ hlist, (hkept (hnone.2 (by decide))).1⟩

end PhiTypes
end IrAnalysis
