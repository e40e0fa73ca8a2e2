/-
# A graph at its fixpoint is only renamed

A renaming that is a symmetry of the class tree changes nothing but names.  If no update
would change the types of a graph, then moving the graph to the new names gives every live
value the new name of the type that it had, whichever values are recomputed for it
(`rewriteTypes_renames`).  The types that a rewrite leaves are compared with the renamed ones
from both sides: the renamed types solve the equations of the new graph, so the rewrite,
which gives the least, leaves no more; and what it leaves, with the names taken back, solves
the equations of the old graph, whose types are the least.

This asks two things of what is recomputed (`Graph.MovesWith`).  It reads live values, as
others are not renamed.  And a bound that it assumes keeps its name: a rewrite renames the types
of values and leaves the bounds as they are.
-/

import IrAnalysis.Proofs.Rewriting
import IrAnalysis.Proofs.Symmetry

namespace IrAnalysis
namespace Graph

variable {h : Hierarchy} {g g' : Graph} {f k : ClassId → ClassId} {σ : ValueId → Ty}
  {seeds seeds' : List ValueId} {u v w : ValueId}

/-- What the value is computed from moves to the new names with it: the values that it reads are
live, and an operation that passes one through assumes no bound that is renamed. -/
structure MovesWith (g : Graph) (f : ClassId → ClassId) (v : ValueId) : Prop where
  phi : ∀ p, (g.valueAt v).livePhi? = some p → ∀ w ∈ p.operands, (g.valueAt w).live = true
  pass : ∀ x, g.origin? v = some x → ∀ w ∈ x.operands, (g.valueAt w).live = true
  bound : ∀ x, g.origin? v = some x → x.operation.rename f = x.operation

/-- Types in new names, for the values that are live. -/
def moved (g : Graph) (f : ClassId → ClassId) (σ : ValueId → Ty) (v : ValueId) : Ty :=
  if (g.valueAt v).live then (σ v).rename f else g.typeAt v

theorem moved_of_live (hv : (g.valueAt v).live = true) : g.moved f σ v = (σ v).rename f :=
  if_pos hv

theorem moved_isNormal (ht : PhiTypes.ProperTypes g) (hσ : ∀ w, (σ w).IsNormal) (v : ValueId) :
    (g.moved f σ v).IsNormal := by
  unfold moved
  split_ifs
  · exact Ty.rename_isNormal f (hσ v)
  · exact ht.normal v

/-- **What flows into a value that moves with what it is computed from is renamed.** -/
theorem InStep.flow_moved (hg : InStep g) (hb : g.ProperBounds) (hf : h.Symmetry f)
    (hσ : ∀ w, (σ w).IsNormal) (hv : g.Hangs seeds v) (hmoves : g.MovesWith f v) :
    g.flow h (g.moved f σ) v = (g.flow h σ v).rename f := by
  rcases hg.hangs_cases hv with ⟨p, hp⟩ | ⟨x, u, hp, hx, hpass, hu, -⟩
  · rw [flow_phi hp, flow_phi hp, ← Ty.joinAll_rename hf, List.map_map]
    · exact congrArg _ (List.map_congr_left fun w hw => moved_of_live (hmoves.phi p hp w hw))
    · intro t ht
      obtain ⟨w, -, rfl⟩ := List.mem_map.1 ht
      exact hσ w
  · obtain ⟨w, rest, hops⟩ := List.exists_cons_of_ne_nil (List.ne_nil_of_mem hu)
    have hw : (g.valueAt w).live = true := hmoves.pass x hx w (hops ▸ List.mem_cons_self)
    obtain ⟨i, -, hi⟩ := Option.bind_eq_some_iff.1 hx
    have hout := Operation.outputType_rename hf (hb i x hi) (hσ w)
    rw [hmoves.bound x hx] at hout
    rw [flow_pass hp hx hpass hops, flow_pass hp hx hpass hops, moved_of_live hw, hout]

/-- What moves with a renaming moves with its inverse. -/
theorem MovesWith.inverse (hmoves : g.MovesWith f v) (hb : g.ProperBounds)
    (hk : ∀ c, k (f c) = c) : g.MovesWith k v where
  phi := hmoves.phi
  pass := hmoves.pass
  bound x hx := by
    obtain ⟨i, -, hi⟩ := Option.bind_eq_some_iff.1 hx
    have hback := Operation.rename_cancel hk (hb i x hi)
    rwa [hmoves.bound x hx] at hback

/-- The live phis of a graph. -/
def phiIds (g : Graph) : List ValueId := g.livePhis.map (·.1)

theorem mem_phiIds {p : Phi} (hp : (g.valueAt v).livePhi? = some p) : v ∈ g.phiIds := by
  obtain ⟨hlive, hdef⟩ := Value.livePhi?_eq_some.1 hp
  have hslot : g.slot? v = some (g.valueAt v) := by
    obtain ⟨x, hx⟩ := Option.isSome_iff_exists.1 (hasValue_of_live hlive)
    rw [hx, valueAt_of_slot? hx]
  refine List.mem_map.2 ⟨(v, g.valueAt v), List.mem_filter.2 ⟨?_, ?_⟩, rfl⟩
  · refine List.mem_filterMap.2 ⟨(g.valueAt v, v.index), List.mem_zipIdx_iff_getElem?.2 hslot, ?_⟩
    exact if_pos hlive
  · simp [Value.isPhi, Value.phi?, hdef]

end Graph

namespace PhiTypes

open IrAnalysis.Graph

variable {h : Hierarchy} {lens since : Lens} {g g' : Graph} {f : ClassId → ClassId} {v w : ValueId}

/-- **No update would change a type.**  A pass-through operation has one operand, what it defines
has the type that the operation makes of it, and an update of all phis leaves the graph as it is. -/
structure AtFixpoint (h : Hierarchy) (g : Graph) : Prop where
  oneOperand : ∀ i x, g.instruction? i = some x → x.operation.passesThrough = true →
    ∃ w, x.operands = [w]
  pass : ∀ i x v, g.instruction? i = some x → x.operation.passesThrough = true →
    x.output = some v → passThroughType h g (g.typeAt v) x = .ok (g.typeAt v)
  update : ∃ u, update h (.ok id) g g.phiIds = .ok u ∧ u.graph = g

theorem AtFixpoint.updateSpec (hfix : AtFixpoint h g) (hg : InStep g) (ht : ProperTypes g)
    (hb : g.ProperBounds) : UpdateSpec h g g.phiIds g := by
  obtain ⟨u, hu, hsame⟩ := hfix.update
  obtain ⟨u', hu', hs⟩ := update_spec (h := h) hg hb ht (f := id) g.phiIds
    fun v _ _ _ => Ty.rename_id (ht.normal v)
  obtain rfl := Except.ok.inj (hu.symm.trans hu')
  rwa [hsame] at hs

/-- At a fixpoint the type of a value is what flows into it. -/
theorem AtFixpoint.flow_eq (hfix : AtFixpoint h g) (hg : InStep g) (ht : ProperTypes g)
    (hb : g.ProperBounds) (v : ValueId) : g.flow h g.typeAt v = g.typeAt v := by
  rcases g.flow_cases v with ⟨p, hp⟩ | ⟨x, w, rest, hp, hx, hpass, hops⟩ | ⟨hp, hx⟩
  · exact ((hfix.updateSpec hg ht hb).settled v (.seed (mem_phiIds hp) hp)
      (oneOperand_of_livePhi? hp)).symm
  · obtain ⟨i, hi, hix⟩ := Option.bind_eq_some_iff.1 hx
    have hone := hfix.pass i x v hix hpass (hg.output_of_definer? hi hix)
    rw [passThroughType, if_pos hpass, hops] at hone
    rw [flow_pass hp hx hpass hops]
    exact Except.ok.inj
      ((Operation.tryOutputType_of_proper h (ht.proper w) x.operation).symm.trans hone)
  · exact flow_self hp hx

/-- What is not recomputed has its new name once the values are renamed: a phi that is not stale
keeps the old one, which is the same. -/
theorem typeAt_renamed_of_not_hangs (hv : ¬ (g.renamed f).Hangs (g.stale f) v) :
    (g.renamed f).typeAt v = g.moved f g.typeAt v := by
  rw [typeAt_renamed]
  by_cases hlive : (g.valueAt v).live = true
  · rw [moved_of_live hlive]
    cases hp : (g.valueAt v).livePhi? with
    | some p =>
      have hpR := ((sameButTypes_renamed g f).livePhi? v).trans hp
      rw [Value.type_renamed_of_livePhi? hp, ← typeAt_eq]
      exact (rename_eq_of_not_stale hp fun hstale => hv (.seed hstale hpR)).symm
    | none =>
      have hphi : (g.valueAt v).isPhi = false := by
        rw [Value.livePhi?, if_pos hlive] at hp
        rw [Value.isPhi, hp]
        rfl
      rw [Value.renamed, hlive, hphi, typeAt_eq]
      rfl
  · rw [moved, if_neg hlive, Value.renamed, if_neg (by simp [hlive]), typeAt_eq]

/-- The renamed types solve the equations of what is recomputed. -/
theorem AtFixpoint.above_renamed (hfix : AtFixpoint h g) (hg : InStep g) (ht : ProperTypes g)
    (hb : g.ProperBounds) (hf : h.Symmetry f)
    (hmoves : ∀ v, (g.renamed f).Hangs (g.stale f) v → g.MovesWith f v) :
    Above h (g.renamed f) (g.stale f) (g.moved f g.typeAt) where
  normal := moved_isNormal ht ht.normal
  held v hv := by
    rw [typeAt_renamed_of_not_hangs hv]
    exact Ty.le_refl h _
  flow v hv := by
    have hsame := sameButTypes_renamed g f
    have hold : g.Hangs g.phiIds v := hsame.hangs (fun _ _ _ hp => mem_phiIds hp) hv
    rw [hsame.flow, hg.flow_moved hb hf ht.normal hold (hmoves v hv), hfix.flow_eq hg ht hb,
      moved_of_live (hg.live_of_hangs hold)]
    exact Ty.le_refl h _

/-- What a rewrite leaves, with the names taken back, solves the equations of all phis and of what
hangs on them. -/
theorem AtFixpoint.above_taken_back {k : ClassId → ClassId} (hfix : AtFixpoint h g)
    (hg : InStep g) (ht : ProperTypes g) (hb : g.ProperBounds) (hk : h.Symmetry k)
    (hkf : ∀ c, k (f c) = c)
    (hmoves : ∀ v, (g.renamed f).Hangs (g.stale f) v → g.MovesWith f v)
    (hs : UpdateSpec h (g.renamed f) (g.stale f) g') :
    Above h g g.phiIds (g.moved k g'.typeAt) := by
  have hsame := sameButTypes_renamed g f
  have hheld : ∀ v, ¬ (g.renamed f).Hangs (g.stale f) v → g.moved k g'.typeAt v = g.typeAt v := by
    intro v hv
    unfold moved
    split_ifs with hlive
    · rw [hs.held v hv, typeAt_renamed_of_not_hangs hv, moved_of_live hlive,
        Ty.rename_cancel hkf (ht.normal v)]
    · rfl
  refine ⟨moved_isNormal ht hs.types.normal, fun v hv => ?_, fun v hv => ?_⟩
  · rw [hheld v fun hh => hv (hsame.hangs (fun _ _ _ hp => mem_phiIds hp) hh)]
    exact Ty.le_refl h _
  · by_cases hh : (g.renamed f).Hangs (g.stale f) v
    · have hone := hsame.oneOperand (OneOperand.of_instructions hfix.oneOperand v)
      have hsettled := hs.settled v hh hone
      rw [hsame.flow] at hsettled
      rw [hg.flow_moved hb hk hs.types.normal hv ((hmoves v hh).inverse hb hkf), ← hsettled,
        moved_of_live (hg.live_of_hangs hv)]
      exact Ty.le_refl h _
    · -- Nothing that the value reads was recomputed either.
      have hflow := (hg.retype hsame).flow_eq_of_not_hangs (h := h) hheld hh
      rw [hsame.flow, hsame.flow] at hflow
      rw [hflow, hfix.flow_eq hg ht hb, hheld v hh]
      exact Ty.le_refl h _

/-- The graph with every live value under the new name of its type. -/
structure Moved (f : ClassId → ClassId) (g g' : Graph) : Prop where
  same : SameButTypes g g'
  types : ∀ v x, g.value? v = some x → g'.typeAt v = x.type.rename f

/-- **A rewrite of a graph at its fixpoint gives every live value the new name of its type.** -/
theorem rewrite_moved (hg : InStep g) (ht : ProperTypes g) (hb : g.ProperBounds)
    (hfix : AtFixpoint h g) (hf : lens.types (some since) = .ok f) (hsym : h.Symmetry f)
    (hmoves : ∀ v, (g.renamed f).Hangs (g.stale f) v → g.MovesWith f v) :
    ∃ r, rewrite h lens since g = .ok r ∧ Moved f g r.1 := by
  obtain ⟨k, hk, hkf, hfk⟩ := hsym.exists_inverse
  obtain ⟨r, hr, hs⟩ := rewrite_update (h := h) hg ht hb hf
  refine ⟨r, hr, (sameButTypes_renamed g f).trans hs.same, fun v x hx => ?_⟩
  rw [value?_eq] at hx
  split_ifs at hx with hlive
  · rw [← Option.some.inj hx, ← typeAt_eq]
    have hle := hs.least _ (hfix.above_renamed hg ht hb hsym hmoves) v
    have hge := (hfix.updateSpec hg ht hb).least _
      (hfix.above_taken_back hg ht hb hk hkf hmoves hs) v
    rw [moved_of_live hlive] at hle hge
    have hnew := hs.types.normal v
    refine Ty.le_antisymm (h := h) hnew (Ty.rename_isNormal f (ht.normal v)) hle ?_
    have hback := Ty.le_rename hsym.mapsInto hge
    rwa [Ty.rename_cancel hfk hnew] at hback

/-! ### An assumption behind a phi -/

/-- An argument flows into a phi, and the phi into an assumption. -/
def assuming (fact : TypeFact) (t : Ty) : Graph :=
  afterAll [.addBlock, .addBlock, .addEdge ⟨0⟩ ⟨1⟩,
    .addInstruction ⟨0⟩ (.argument 0) [] (some (.ref (.cls ⟨1⟩) .maybe)),
    .addPhi ⟨1⟩ (.ref (.cls ⟨1⟩) .maybe), .appendOperand ⟨1⟩ ⟨0⟩,
    .addInstruction ⟨1⟩ (.assume fact) [⟨1⟩] (some t)] (Graph.empty none)

section Assuming

variable {fact : TypeFact} {t : Ty} {seeds : List ValueId}

theorem assuming_reachable : (assuming fact t).Reachable := Reachable.afterAll (.empty none) _

theorem assuming_instruction? {i : InstId} {x : Instruction}
    (hx : (assuming fact t).instruction? i = some x) :
    x = ⟨⟨0⟩, .argument 0, [], some ⟨0⟩⟩ ∨ x = ⟨⟨1⟩, .assume fact, [⟨1⟩], some ⟨2⟩⟩ := by
  have hmem : some x ∈ (assuming fact t).instructions :=
    List.mem_of_getElem? (Option.join_eq_some_iff.1 hx)
  have hall : (assuming fact t).instructions = [some ⟨⟨0⟩, .argument 0, [], some ⟨0⟩⟩,
      some ⟨⟨1⟩, .assume fact, [⟨1⟩], some ⟨2⟩⟩] := rfl
  rw [hall] at hmem
  simpa using hmem

theorem properTypes_assuming (hn : t.IsNormal) (hp : t.IsProper) :
    ProperTypes (assuming fact t) := by
  have htypes : (assuming fact t).values.map (·.type) =
      [.ref (.cls ⟨1⟩) .maybe, .ref (.cls ⟨1⟩) .maybe, t] := rfl
  refine .of_values fun x hx => ?_
  have hmem : x.type ∈ (assuming fact t).values.map (·.type) := List.mem_map_of_mem hx
  rw [htypes] at hmem
  simp only [List.mem_cons, List.not_mem_nil, or_false] at hmem
  rcases hmem with he | he | he <;> rw [he]
  · exact ⟨rfl, rfl⟩
  · exact ⟨rfl, rfl⟩
  · exact ⟨hn, hp⟩

theorem properBounds_assuming (hfact : (Operation.assume fact).IsProper) :
    (assuming fact t).ProperBounds := by
  intro i x hx
  rcases assuming_instruction? hx with rfl | rfl
  · exact fun bound hbound => absurd hbound (by simp)
  · exact hfact

theorem flow_assuming (σ : ValueId → Ty) :
    (assuming fact t).flow h σ ⟨1⟩ = Ty.joinAll h [σ ⟨0⟩] ∧
      (assuming fact t).flow h σ ⟨2⟩ = (Operation.assume fact).outputType h (σ ⟨1⟩) :=
  ⟨flow_phi (p := ⟨⟨1⟩, [⟨0⟩]⟩) rfl,
    flow_pass (x := ⟨⟨1⟩, .assume fact, [⟨1⟩], some ⟨2⟩⟩) rfl rfl rfl rfl⟩

theorem oneOperand_assuming {i : InstId} {x : Instruction}
    (hx : (assuming fact t).instruction? i = some x) (hpass : x.operation.passesThrough = true) :
    ∃ w, x.operands = [w] := by
  rcases assuming_instruction? hx with rfl | rfl
  · exact absurd hpass (by decide)
  · exact ⟨⟨1⟩, rfl⟩

/-- If the fact names no class that is renamed, what is computed moves with the argument. -/
theorem movesWith_assuming (hf : (Operation.assume fact).rename f = .assume fact)
    (hv : v = ⟨1⟩ ∨ v = ⟨2⟩) : (assuming fact t).MovesWith f v := by
  rcases hv with rfl | rfl
  · have hphi : ((assuming fact t).valueAt ⟨1⟩).livePhi? = some ⟨⟨1⟩, [⟨0⟩]⟩ := rfl
    have hno : (assuming fact t).origin? ⟨1⟩ = none := rfl
    refine ⟨fun p hp => ?_, fun x hx => ?_, fun x hx => ?_⟩
    · obtain rfl := Option.some.inj (hphi.symm.trans hp)
      exact List.forall_mem_singleton.2 rfl
    · exact absurd (hno.symm.trans hx) (by simp)
    · exact absurd (hno.symm.trans hx) (by simp)
  · have hno : ((assuming fact t).valueAt ⟨2⟩).livePhi? = none := rfl
    have hpass : (assuming fact t).origin? ⟨2⟩ =
        some ⟨⟨1⟩, .assume fact, [⟨1⟩], some ⟨2⟩⟩ := rfl
    refine ⟨fun p hp => ?_, fun x hx => ?_, fun x hx => ?_⟩
    · exact absurd (hno.symm.trans hp) (by simp)
    · obtain rfl := Option.some.inj (hpass.symm.trans hx)
      exact List.forall_mem_singleton.2 rfl
    · obtain rfl := Option.some.inj (hpass.symm.trans hx)
      exact hf

/-- The assumption hangs on the phi, and nothing else does. -/
theorem hangs_assuming (hmem : ⟨1⟩ ∈ seeds) :
    (assuming fact t).Hangs seeds v ↔ v = ⟨1⟩ ∨ v = ⟨2⟩ := by
  have hphi : ((assuming fact t).valueAt ⟨1⟩).livePhi? = some ⟨⟨1⟩, [⟨0⟩]⟩ := rfl
  have hassume : (assuming fact t).instruction? ⟨1⟩ =
      some ⟨⟨1⟩, .assume fact, [⟨1⟩], some ⟨2⟩⟩ := rfl
  constructor
  · intro hv
    rcases assuming_reachable.inStep.hangs_cases hv with ⟨p, hp⟩ | ⟨x, u, -, hx, hpass, -⟩
    · exact Or.inl (List.mem_singleton.1 (mem_phiIds hp))
    · obtain ⟨i, hi, hix⟩ := Option.bind_eq_some_iff.1 hx
      have hout := assuming_reachable.inStep.output_of_definer? hi hix
      rcases assuming_instruction? hix with rfl | rfl
      · exact absurd hpass (by decide)
      · exact Or.inr (Option.some.inj hout).symm
  · have hone : (assuming fact t).Hangs seeds ⟨1⟩ := .seed hmem hphi
    rintro (rfl | rfl)
    · exact hone
    · exact .pass hone hassume rfl List.mem_cons_self rfl

/-- An update of the graph computes both types from that of the argument. -/
theorem UpdateSpec.typeAt_assuming (hsame : SameButTypes (assuming fact t) g)
    (hs : UpdateSpec h g seeds g') (hmem : ⟨1⟩ ∈ seeds) :
    (∀ v, v ≠ ⟨1⟩ → v ≠ ⟨2⟩ → g'.typeAt v = g.typeAt v) ∧
      g'.typeAt ⟨1⟩ = Ty.joinAll h [g.typeAt ⟨0⟩] ∧
      g'.typeAt ⟨2⟩ = (Operation.assume fact).outputType h (g'.typeAt ⟨1⟩) := by
  have hone : ∀ v, g.OneOperand v := fun v =>
    hsame.oneOperand (OneOperand.of_instructions (fun _ _ => oneOperand_assuming) v)
  have hhangs : ∀ v, v = ⟨1⟩ ∨ v = ⟨2⟩ → g.Hangs seeds v := fun v hv =>
    hsame.symm.hangs (fun _ _ hv _ => hv) ((hangs_assuming hmem).2 hv)
  have hheld : ∀ v, v ≠ ⟨1⟩ → v ≠ ⟨2⟩ → g'.typeAt v = g.typeAt v := fun v h1 h2 =>
    hs.held v fun hv =>
      ((hangs_assuming hmem).1 (hsame.hangs (fun _ _ hv _ => hv) hv)).elim h1 h2
  have hphi := hs.settled ⟨1⟩ (hhangs _ (Or.inl rfl)) (hone _)
  have hpass := hs.settled ⟨2⟩ (hhangs _ (Or.inr rfl)) (hone _)
  rw [hsame.flow, (flow_assuming g'.typeAt).1, hheld ⟨0⟩ (by decide) (by decide)] at hphi
  rw [hsame.flow, (flow_assuming g'.typeAt).2] at hpass
  exact ⟨hheld, hphi, hpass⟩

theorem atFixpoint_assuming (hn : t.IsNormal) (hp : t.IsProper)
    (hfact : (Operation.assume fact).IsProper)
    (hout : (Operation.assume fact).outputType h (.ref (.cls ⟨1⟩) .maybe) = t) :
    AtFixpoint h (assuming fact t) where
  oneOperand _ _ := oneOperand_assuming
  pass i x v hx hpass hv := by
    rcases assuming_instruction? hx with rfl | rfl
    · exact absurd hpass (by decide)
    · obtain rfl := Option.some.inj hv
      have hin : (Ty.ref (.cls ⟨1⟩) .maybe).IsProper := rfl
      have htry := Operation.tryOutputType_of_proper h hin (.assume fact)
      rw [hout] at htry
      exact htry
  update := by
    have ht : ProperTypes (assuming fact t) := properTypes_assuming hn hp
    obtain ⟨u, hu, hs⟩ := update_spec (h := h) assuming_reachable.inStep
      (properBounds_assuming (t := t) hfact) ht (f := id) (assuming fact t).phiIds
      fun v _ _ _ => Ty.rename_id (ht.normal v)
    obtain ⟨hheld, hphi, hpass⟩ := hs.typeAt_assuming (.refl _) List.mem_cons_self
    have hphi' : u.graph.typeAt ⟨1⟩ = .ref (.cls ⟨1⟩) .maybe := hphi
    have htypes : ∀ v, u.graph.typeAt v = (assuming fact t).typeAt v := by
      intro v
      by_cases h1 : v = ⟨1⟩
      · rw [h1]
        exact hphi
      · by_cases h2 : v = ⟨2⟩
        · rw [h2, hpass, hphi', hout]
          rfl
        · exact hheld v h1 h2
    exact ⟨u, hu, hs.same.eq htypes⟩

end Assuming

/-- The layer that exchanges two classes. -/
def exchange : Layer :=
  { Layer.empty with types := (Table.empty.insert ⟨1⟩ ⟨2⟩).insert ⟨2⟩ ⟨1⟩ }

/-- Below one root all classes can be exchanged. -/
theorem symmetry_exchange : (Hierarchy.ofRoot ⟨0⟩).Symmetry exchange.renameType := by
  have hname : ∀ c, exchange.renameType c = if c = ⟨2⟩ then ⟨1⟩ else if c = ⟨1⟩ then ⟨2⟩ else c := by
    intro c
    rw [Layer.renameType, exchange, Table.get?_insert, Table.get?_insert, Table.get?_empty]
    split_ifs <;> rfl
  have hinv : Function.Involutive exchange.renameType := by
    intro c
    rw [hname, hname]
    by_cases h2 : c = ⟨2⟩
    · simp [h2]
    · by_cases h1 : c = ⟨1⟩ <;> simp [h1, h2]
  have hroot : exchange.renameType ⟨0⟩ = ⟨0⟩ := rfl
  have hparent : ∀ c, (Hierarchy.ofRoot ⟨0⟩).parent c = if c = ⟨0⟩ then none else some ⟨0⟩ :=
    fun _ => rfl
  refine ⟨hinv.bijective, hroot, fun c => ?_⟩
  rw [hparent, hparent]
  by_cases hc : c = ⟨0⟩
  · rw [hc]
    rfl
  · have hne : exchange.renameType c ≠ ⟨0⟩ := fun he => hc (hinv.injective (he.trans hroot.symm))
    rw [if_neg hne, if_neg hc]
    rfl

theorem not_below_exchanged : ¬ (Hierarchy.ofRoot ⟨0⟩).Below ⟨2⟩ ⟨1⟩ := by
  intro hbelow
  rcases Relation.ReflTransGen.cases_head hbelow with heq | ⟨p, hp, habove⟩
  · exact absurd heq (by decide)
  · obtain rfl : (Hierarchy.ofRoot ⟨0⟩).root = p := Option.some.inj hp
    exact absurd (Hierarchy.eq_root_of_root_below habove) (by decide)

end PhiTypes

namespace Workers

open IrAnalysis.Graph PhiTypes

variable {h : Hierarchy} {lens since : Lens} {gs : List Graph} {f : ClassId → ClassId}

/-- **Workers that move graphs at their fixpoints along a symmetry of the class tree only rename
them**: phis, pass-through results and all other live values.  What is recomputed on the way
has to move with what it is computed from. -/
theorem rewriteTypes_renames (w : Workers) (hgs : ∀ g ∈ gs, g.Reachable)
    (ht : ∀ g ∈ gs, ProperTypes g) (hb : ∀ g ∈ gs, g.ProperBounds)
    (hfix : ∀ g ∈ gs, AtFixpoint h g) (hf : lens.types (some since) = .ok f)
    (hsym : h.Symmetry f)
    (hmoves : ∀ g ∈ gs, ∀ v ∈ resetSet (g.renamed f) (g.stale f), g.MovesWith f v) :
    ∃ rs, w.rewriteTypes h lens since gs = .ok rs ∧
      List.Forall₂ (fun g r => Moved f g r.1) gs rs := by
  refine exists_mapM_eq_ok (f := rewrite h lens since) (R := fun g r => Moved f g r.1) fun g hg => ?_
  have hstep := (hgs g hg).inStep
  refine rewrite_moved hstep (ht g hg) (hb g hg) (hfix g hg) hf hsym fun v hv => ?_
  exact hmoves g hg v ((mem_resetSet (hstep.retype (sameButTypes_renamed g f))).2 hv)

/-- An assumption behind a phi, of a class that is exchanged with another one. -/
theorem rewriteTypes_renames_exchange :
    let lens : Lens := .nested 0 exchange .identity
    let g := assuming .nonNull (.ref (.cls ⟨1⟩) .nonNull)
    g.Reachable ∧ ProperTypes g ∧ g.ProperBounds ∧ AtFixpoint (.ofRoot ⟨0⟩) g ∧
      lens.types (some .identity) = .ok exchange.renameType ∧
      (Hierarchy.ofRoot ⟨0⟩).Symmetry exchange.renameType ∧
      (∀ v ∈ resetSet (g.renamed exchange.renameType) (g.stale exchange.renameType),
        g.MovesWith exchange.renameType v) ∧
      ∃ rs, Workers.rewriteTypes ⟨none⟩ (.ofRoot ⟨0⟩) lens .identity [g] = .ok rs ∧
        List.Forall₂ (fun g r => Moved exchange.renameType g r.1) [g] rs := by
  intro lens g
  have ht : ProperTypes g := properTypes_assuming rfl rfl
  have hb : g.ProperBounds := properBounds_assuming fun bound hbound => absurd hbound (by simp)
  have hfix : AtFixpoint (.ofRoot ⟨0⟩) g :=
    atFixpoint_assuming rfl rfl (fun bound hbound => absurd hbound (by simp)) rfl
  have hf : lens.types (some .identity) = .ok exchange.renameType := rfl
  have hmoves : ∀ v ∈ resetSet (g.renamed exchange.renameType) (g.stale exchange.renameType),
      g.MovesWith exchange.renameType v := by
    intro v hv
    have hsame := sameButTypes_renamed g exchange.renameType
    have hhangs := (mem_resetSet (assuming_reachable.inStep.retype hsame)).1 hv
    have hmem : ⟨1⟩ ∈ g.stale exchange.renameType := by decide
    exact movesWith_assuming rfl ((hangs_assuming hmem).1 (hsame.hangs (fun _ _ hv _ => hv) hhangs))
  refine ⟨assuming_reachable, ht, hb, hfix, hf, symmetry_exchange, hmoves,
    rewriteTypes_renames ⟨none⟩ ?_ ?_ ?_ ?_ hf symmetry_exchange ?_⟩
  · exact List.forall_mem_singleton.2 assuming_reachable
  · exact List.forall_mem_singleton.2 ht
  · exact List.forall_mem_singleton.2 hb
  · exact List.forall_mem_singleton.2 hfix
  · exact List.forall_mem_singleton.2 hmoves

/-- **A bound that is assumed keeps its name**: what is assumed below one of two classes is not
below it once the classes are exchanged, and its type is not renamed. -/
theorem rewriteTypes_keeps_bound :
    let lens : Lens := .nested 0 exchange .identity
    let bound : Ty := .ref (.cls ⟨1⟩) .maybe
    let g := assuming (.upperBound bound) bound
    g.Reachable ∧ ProperTypes g ∧ g.ProperBounds ∧ AtFixpoint (.ofRoot ⟨0⟩) g ∧
      lens.types (some .identity) = .ok exchange.renameType ∧
      (Hierarchy.ofRoot ⟨0⟩).Symmetry exchange.renameType ∧ (g.value? ⟨2⟩).isSome = true ∧
      ∃ r, Workers.rewriteTypes ⟨none⟩ (.ofRoot ⟨0⟩) lens .identity [g] = .ok [r] ∧
        r.1.typeAt ⟨2⟩ ≠ (g.typeAt ⟨2⟩).rename exchange.renameType := by
  intro lens bound g
  have hfact : (Operation.assume (.upperBound bound)).IsProper := by
    rintro b hb
    obtain rfl := TypeFact.upperBound.inj (Operation.assume.inj hb)
    exact ⟨rfl, rfl⟩
  have ht : ProperTypes g := properTypes_assuming rfl rfl
  have hb : g.ProperBounds := properBounds_assuming hfact
  have hout : bound.meet (.ofRoot ⟨0⟩) bound = bound :=
    Ty.le_antisymm (h := .ofRoot ⟨0⟩) (Ty.meet_isNormal _ _ _) rfl (Ty.meet_le_left _ _ _)
      (Ty.le_meet_iff.2 ⟨Ty.le_refl _ _, Ty.le_refl _ _⟩)
  have hfix : AtFixpoint (.ofRoot ⟨0⟩) g := atFixpoint_assuming rfl rfl hfact hout
  have hf : lens.types (some .identity) = .ok exchange.renameType := rfl
  obtain ⟨r, hr, hs⟩ := rewrite_update (h := .ofRoot ⟨0⟩) assuming_reachable.inStep ht hb hf
  have hrs : Workers.rewriteTypes ⟨none⟩ (.ofRoot ⟨0⟩) lens .identity [g] = .ok [r] :=
    mapM_eq_ok (k := fun _ => r) (List.forall_mem_singleton.2 hr)
  have hlive : (g.value? ⟨2⟩).isSome = true := rfl
  refine ⟨assuming_reachable, ht, hb, hfix, hf, symmetry_exchange, hlive, r, hrs, ?_⟩
  obtain ⟨-, hphi, hpass⟩ := hs.typeAt_assuming (sameButTypes_renamed _ _) (by decide)
  have hphi' : r.1.typeAt ⟨1⟩ = .ref (.cls ⟨2⟩) .maybe := hphi
  rw [hpass, hphi']
  intro heq
  have hle := Ty.meet_le_right (.ofRoot ⟨0⟩) (.ref (.cls ⟨2⟩) .maybe) bound
  change Ty.le _ ((Operation.assume (.upperBound bound)).outputType _ _) bound at hle
  rw [heq, Ty.le_iff_below] at hle
  exact not_below_exchanged hle.1

end Workers
end IrAnalysis
