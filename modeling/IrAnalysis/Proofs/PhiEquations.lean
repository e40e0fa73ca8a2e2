/-
# The equations of phis and pass-through results

What flows into a value is a function of the types of what it reads
(`Graph.flow`): into a phi the join of its operands, into a pass-through result what
the operation makes of its operand.  The function is monotone (`Graph.flow_le_flow`)
and depends on nothing that the value does not read (`Graph.flow_eq_of_not_reading`).
It is what `PhiTypes.computeType` computes, which refuses only arrays of no dimensions
(`PhiTypes.computeType_eq`).
-/

import IrAnalysis.Proofs.Resetting
import IrAnalysis.Proofs.TypeFlow

namespace IrAnalysis
namespace Graph

variable {h : Hierarchy} {g g' : Graph} {seeds seeds' : List ValueId} {σ τ : ValueId → Ty}
  {u v w : ValueId} {i : InstId} {x : Instruction} {p : Phi}

/-- The instruction that defines a live value. -/
def origin? (g : Graph) (v : ValueId) : Option Instruction :=
  (g.valueAt v).definer?.bind g.instruction?

/-- **The type that flows into a value** when the values have the types `σ`.  A value that is
neither a phi nor a pass-through result keeps its type. -/
def flow (h : Hierarchy) (g : Graph) (σ : ValueId → Ty) (v : ValueId) : Ty :=
  match (g.valueAt v).livePhi?, g.origin? v with
  | some p, _ => Ty.joinAll h (p.operands.map σ)
  | none, some ⟨_, operation, w :: _, _⟩ =>
    if operation.passesThrough then operation.outputType h (σ w) else σ v
  | none, _ => σ v

theorem flow_phi (hp : (g.valueAt v).livePhi? = some p) :
    g.flow h σ v = Ty.joinAll h (p.operands.map σ) := by
  simp only [flow, hp]

theorem flow_pass {rest : List ValueId} (hp : (g.valueAt v).livePhi? = none)
    (hx : g.origin? v = some x) (hpass : x.operation.passesThrough = true)
    (hops : x.operands = w :: rest) : g.flow h σ v = x.operation.outputType h (σ w) := by
  obtain ⟨b, operation, operands, output⟩ := x
  obtain rfl : operands = w :: rest := hops
  have hpass' : operation.passesThrough = true := hpass
  simp only [flow, hp, hx, hpass', if_true]

/-- A value into which nothing flows but its own type. -/
theorem flow_self (hp : (g.valueAt v).livePhi? = none)
    (hx : ∀ x, g.origin? v = some x → x.operation.passesThrough = false ∨ x.operands = []) :
    g.flow h σ v = σ v := by
  unfold flow
  rw [hp]
  rcases horigin : g.origin? v with _ | ⟨b, operation, operands, output⟩
  · rfl
  · rcases hx _ horigin with hpass | hops
    · have hpass' : operation.passesThrough = false := hpass
      cases operands with
      | nil => rfl
      | cons w rest => simp [hpass']
    · obtain rfl : operands = [] := hops
      rfl

/-- The three ways in which a type flows into a value. -/
theorem flow_cases (g : Graph) (v : ValueId) :
    (∃ p, (g.valueAt v).livePhi? = some p) ∨
      (∃ x w rest, (g.valueAt v).livePhi? = none ∧ g.origin? v = some x ∧
        x.operation.passesThrough = true ∧ x.operands = w :: rest) ∨
      ((g.valueAt v).livePhi? = none ∧
        ∀ x, g.origin? v = some x → x.operation.passesThrough = false ∨ x.operands = []) := by
  rcases hp : (g.valueAt v).livePhi? with _ | p
  · by_cases hx : ∃ x w rest, g.origin? v = some x ∧ x.operation.passesThrough = true ∧
        x.operands = w :: rest
    · obtain ⟨x, w, rest, hx, hpass, hops⟩ := hx
      exact Or.inr (Or.inl ⟨x, w, rest, rfl, hx, hpass, hops⟩)
    · refine Or.inr (Or.inr ⟨rfl, fun x hx' => ?_⟩)
      by_contra hno
      rw [not_or, Bool.not_eq_false] at hno
      obtain ⟨w, rest, hops⟩ := List.exists_cons_of_ne_nil hno.2
      exact hx ⟨x, w, rest, hx', hno.1, hops⟩
  · exact Or.inl ⟨p, rfl⟩

theorem SameButTypes.origin? (hs : SameButTypes g g') (v : ValueId) :
    g'.origin? v = g.origin? v := by
  have hd : (g'.valueAt v).definer? = (g.valueAt v).definer? :=
    hs.view (·.definer?) (fun _ _ => rfl) v
  rw [Graph.origin?, hd, Graph.origin?, funext hs.instruction?]

theorem SameButTypes.flow (hs : SameButTypes g g') : g'.flow h σ v = g.flow h σ v := by
  rw [Graph.flow, hs.livePhi?, hs.origin?, Graph.flow]

/-- **What flows grows with the types.** -/
theorem flow_le_flow (hσ : ∀ w, (σ w).IsNormal) (hτ : ∀ w, (τ w).IsNormal)
    (hle : ∀ w, (σ w).le h (τ w)) : (g.flow h σ v).le h (g.flow h τ v) := by
  rcases g.flow_cases v with ⟨p, hp⟩ | ⟨x, w, rest, hp, hx, hpass, hops⟩ | ⟨hp, hx⟩
  · rw [flow_phi hp, flow_phi hp]
    exact Ty.joinAll_le_joinAll fun w _ => hle w
  · rw [flow_pass hp hx hpass hops, flow_pass hp hx hpass hops]
    exact Operation.outputType_le_outputType (hσ w) (hτ w) (hle w)
  · rw [flow_self hp hx, flow_self hp hx]
    exact hle v

theorem flow_isNormal (hσ : ∀ w, (σ w).IsNormal) : (g.flow h σ v).IsNormal := by
  rcases g.flow_cases v with ⟨p, hp⟩ | ⟨x, w, rest, hp, hx, hpass, hops⟩ | ⟨hp, hx⟩
  · rw [flow_phi hp]
    exact Ty.joinAll_isNormal h _
  · rw [flow_pass hp hx hpass hops]
    exact Operation.outputType_isNormal (hσ w)
  · rw [flow_self hp hx]
    exact hσ v

/-- If a pass-through operation defines the value, it has one operand. -/
def OneOperand (g : Graph) (v : ValueId) : Prop :=
  ∀ x, g.origin? v = some x → x.operation.passesThrough = true → ∃ w, x.operands = [w]

theorem OneOperand.of_instructions (hone : ∀ i x, g.instruction? i = some x →
    x.operation.passesThrough = true → ∃ w, x.operands = [w]) (v : ValueId) : g.OneOperand v := by
  intro x hx hpass
  obtain ⟨i, -, hi⟩ := Option.bind_eq_some_iff.1 hx
  exact hone i x hi hpass

theorem SameButTypes.oneOperand (hs : SameButTypes g g') (hone : g.OneOperand v) :
    g'.OneOperand v := fun x hx => hone x ((hs.origin? v).symm.trans hx)

/-- The bounds that the live instructions assume are in normal form and name no array without
dimensions. -/
def ProperBounds (g : Graph) : Prop := ∀ i x, g.instruction? i = some x → x.operation.IsProper

/-- The bounds that the live instructions assume name no array without dimensions. -/
def DimensionedBounds (g : Graph) : Prop :=
  ∀ i x, g.instruction? i = some x → x.operation.Dimensioned

/-- What holds of all instructions of the list holds of every live one, so that it can be decided. -/
theorem forall_instruction? {P : Instruction → Prop} (hall : ∀ y ∈ g.instructions, ∀ x ∈ y, P x)
    (i : InstId) (x : Instruction) (hx : g.instruction? i = some x) : P x :=
  hall _ (List.mem_of_getElem? (Option.join_eq_some_iff.1 hx)) x rfl

theorem ProperBounds.dimensioned (hb : g.ProperBounds) : g.DimensionedBounds := fun i x hx =>
  (hb i x hx).dimensioned

theorem SameButTypes.dimensionedBounds (hs : SameButTypes g g') (hb : g.DimensionedBounds) :
    g'.DimensionedBounds := fun i x hx => hb i x ((hs.instruction? i).symm.trans hx)

theorem flow_isProper (hb : g.DimensionedBounds) (hσ : ∀ w, (σ w).IsProper) :
    (g.flow h σ v).IsProper := by
  rcases g.flow_cases v with ⟨p, hp⟩ | ⟨x, w, rest, hp, hx, hpass, hops⟩ | ⟨hp, hx⟩
  · rw [flow_phi hp]
    refine Ty.joinAll_isProper fun t ht => ?_
    obtain ⟨w, -, rfl⟩ := List.mem_map.1 ht
    exact hσ w
  · rw [flow_pass hp hx hpass hops]
    obtain ⟨i, -, hi⟩ := Option.bind_eq_some_iff.1 hx
    exact Operation.outputType_isProper (hb i x hi) (hσ w)
  · rw [flow_self hp hx]
    exact hσ v

/-- What hangs on seeds is a live phi, or the result of a pass-through operation that reads what
hangs on them. -/
theorem InStep.hangs_cases (hg : InStep g) (hv : g.Hangs seeds v) :
    (∃ p, (g.valueAt v).livePhi? = some p) ∨
      ∃ x w, (g.valueAt v).livePhi? = none ∧ g.origin? v = some x ∧
        x.operation.passesThrough = true ∧ w ∈ x.operands ∧ g.Hangs seeds w := by
  cases hv with
  | seed _ hp => exact Or.inl ⟨_, hp⟩
  | phi _ hp _ => exact Or.inl ⟨_, hp⟩
  | pass hw hx hpass hmem hout =>
    refine Or.inr ⟨_, _, ?_, ?_, hpass, hmem, hw⟩
    · exact Value.livePhi?_of_definer? (hg.definer?_of_output hx hout)
    · rw [origin?, hg.definer?_of_output hx hout]
      exact hx

/-- What reads a value that hangs on the seeds hangs on them as well. -/
theorem InStep.hangs_of_mem_readers (hg : InStep g) (hv : g.Hangs seeds v)
    (hu : u ∈ g.readers v) : g.Hangs seeds u := by
  rcases List.mem_append.1 hu with hu | hu
  · obtain ⟨p, hp, hread⟩ := hg.mem_readingPhis.1 hu
    exact .phi hv hp hread
  · obtain ⟨i, x, hx, hpass, hread, hout⟩ := hg.mem_readingPassThroughs.1 hu
    exact .pass hv hx hpass hread hout

theorem InStep.live_of_hangs (hg : InStep g) (hv : g.Hangs seeds v) :
    (g.valueAt v).live = true := by
  rcases hg.hangs_cases hv with ⟨p, hp⟩ | ⟨x, w, -, hx, -⟩
  · exact (Value.livePhi?_eq_some.1 hp).1
  · obtain ⟨i, hi, -⟩ := Option.bind_eq_some_iff.1 hx
    exact (Value.definer?_eq_some.1 hi).1

/-- What hangs on some phis hangs on more of them, whatever the types are. -/
theorem SameButTypes.hangs (hs : SameButTypes g g')
    (hsub : ∀ v p, v ∈ seeds → (g.valueAt v).livePhi? = some p → v ∈ seeds')
    (hv : g'.Hangs seeds v) : g.Hangs seeds' v := by
  induction hv with
  | seed hmem hp =>
    rw [hs.livePhi?] at hp
    exact .seed (hsub _ _ hmem hp) hp
  | phi _ hp hmem ih => exact .phi ih ((hs.livePhi? _).symm.trans hp) hmem
  | pass _ hx hpass hmem hout ih =>
    exact .pass ih ((hs.instruction? _).symm.trans hx) hpass hmem hout

theorem SameButTypes.hangs_iff (hs : SameButTypes g g') :
    g'.Hangs seeds v ↔ g.Hangs seeds v :=
  ⟨hs.hangs fun _ _ hmem _ => hmem, hs.symm.hangs fun _ _ hmem _ => hmem⟩

theorem hangs_mono (hsub : ∀ v ∈ seeds, v ∈ seeds') (hv : g.Hangs seeds v) : g.Hangs seeds' v :=
  (SameButTypes.refl g).hangs (fun v _ hmem _ => hsub v hmem) hv

/-- What hangs on two lists of seeds hangs on one of them. -/
theorem hangs_append :
    g.Hangs (seeds ++ seeds') v ↔ g.Hangs seeds v ∨ g.Hangs seeds' v := by
  constructor
  · intro hv
    induction hv with
    | seed hmem hp =>
      rcases List.mem_append.1 hmem with hmem | hmem
      · exact Or.inl (.seed hmem hp)
      · exact Or.inr (.seed hmem hp)
    | phi _ hp hmem ih => exact ih.imp (.phi · hp hmem) (.phi · hp hmem)
    | pass _ hx hpass hmem hout ih =>
      exact ih.imp (.pass · hx hpass hmem hout) (.pass · hx hpass hmem hout)
  · rintro (hv | hv)
    · exact hangs_mono (fun v => List.mem_append_left _) hv
    · exact hangs_mono (fun v => List.mem_append_right _) hv

/-- **What does not hang on the seeds reads nothing that does.** -/
theorem InStep.flow_eq_of_not_hangs (hg : InStep g) (hagree : ∀ w, ¬ g.Hangs seeds w → τ w = σ w)
    (hv : ¬ g.Hangs seeds v) : g.flow h τ v = g.flow h σ v := by
  rcases g.flow_cases v with ⟨p, hp⟩ | ⟨x, w, rest, hp, hx, hpass, hops⟩ | ⟨hp, hx⟩
  · rw [flow_phi hp, flow_phi hp]
    exact congrArg _ (List.map_congr_left fun w hw => hagree w fun hh => hv (.phi hh hp hw))
  · obtain ⟨i, hi, hix⟩ := Option.bind_eq_some_iff.1 hx
    have hw : w ∈ x.operands := hops ▸ List.mem_cons_self
    rw [flow_pass hp hx hpass hops, flow_pass hp hx hpass hops,
      hagree w fun hh => hv (.pass hh hix hpass hw (hg.output_of_definer? hi hix))]
  · rw [flow_self hp hx, flow_self hp hx]
    exact hagree v hv

/-- **A type that climbs changes nothing in what flows into what does not read it**, the value
itself included. -/
theorem InStep.flow_eq_of_not_reading (hg : InStep g) (hagree : ∀ w, w ≠ v → τ w = σ w)
    (hu : g.Hangs seeds u) (hphi : u ∉ g.readingPhis v) (hpass : u ∉ g.readingPassThroughs v) :
    g.flow h τ u = g.flow h σ u := by
  rcases hg.hangs_cases hu with ⟨p, hp⟩ | ⟨x, w, hp, hx, hthrough, hmem, -⟩
  · rw [flow_phi hp, flow_phi hp]
    refine congrArg _ (List.map_congr_left fun w hw => hagree w fun hwv => hphi ?_)
    exact hg.mem_readingPhis.2 ⟨p, hp, hwv ▸ hw⟩
  · obtain ⟨w, rest, hops⟩ := List.exists_cons_of_ne_nil (List.ne_nil_of_mem hmem)
    rw [flow_pass hp hx hthrough hops, flow_pass hp hx hthrough hops]
    obtain ⟨i, hi, hix⟩ := Option.bind_eq_some_iff.1 hx
    have hwv : w ≠ v := by
      rintro rfl
      have hread : w ∈ x.operands := by
        rw [hops]
        exact List.mem_cons_self
      exact hpass (hg.mem_readingPassThroughs.2
        ⟨i, x, hix, hthrough, hread, hg.output_of_definer? hi hix⟩)
    rw [hagree w hwv]

end Graph

namespace PhiTypes

open IrAnalysis.Graph

variable {h : Hierarchy} {g : Graph} {v : ValueId}

/-- **Where no array lacks dimensions the type of a live value is computed as what flows into
it.** -/
theorem computeType_eq (hlive : (g.valueAt v).live = true)
    (hproper : ∀ w, (g.typeAt w).IsProper) :
    computeType h g v = .ok (g.flow h g.typeAt v) := by
  obtain ⟨y, hy⟩ := Option.isSome_iff_exists.1 (hasValue_of_live hlive)
  have hval := valueAt_of_slot? hy
  have htype : g.typeAt v = y.type := by rw [typeAt_eq, hval]
  rw [hval] at hlive
  rw [computeType, hy]
  rcases hdef : y.definition with i | p
  · have hp : (g.valueAt v).livePhi? = none := by
      rw [hval, Value.livePhi?, if_pos hlive, Value.phi?, hdef]
    have hd : (g.valueAt v).definer? = some i := by
      rw [hval]
      exact Value.definer?_eq_some.2 ⟨hlive, hdef⟩
    have ho : g.origin? v = g.instruction? i := by
      rw [origin?, hd]
      rfl
    rcases hx : g.instruction? i with _ | ⟨b, operation, operands, output⟩
    · rw [hx] at ho
      simp only [hdef, hx]
      rw [flow_self hp fun x hx' => absurd (ho.symm.trans hx') (by simp), htype]
    · rw [hx] at ho
      simp only [hdef, hx, passThroughType]
      by_cases hpass : operation.passesThrough = true
      · cases operands with
        | nil =>
          rw [flow_self hp fun x hx' => Or.inr ?_, htype]
          · simp [hpass]
          · obtain rfl := Option.some.inj (ho.symm.trans hx')
            rfl
        | cons w rest =>
          rw [flow_pass hp ho hpass rfl, if_pos hpass]
          exact Operation.tryOutputType_of_proper h (hproper w) operation
      · rw [flow_self hp fun x hx' => Or.inl ?_, htype, if_neg hpass]
        obtain rfl := Option.some.inj (ho.symm.trans hx')
        exact Bool.eq_false_iff.2 hpass
  · have hp : (g.valueAt v).livePhi? = some p := by
      rw [hval]
      exact Value.livePhi?_eq_some.2 ⟨hlive, hdef⟩
    simp only [hdef]
    rw [flow_phi hp]
    refine Ty.tryJoinAll_of_proper fun t ht => ?_
    obtain ⟨w, -, rfl⟩ := List.mem_map.1 ht
    exact hproper w

end PhiTypes
end IrAnalysis
