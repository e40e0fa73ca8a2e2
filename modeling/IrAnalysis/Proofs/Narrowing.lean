/-
# Updates that only narrow

An update first throws the reset types down to `bottom` and lets them climb again, and on a
loop nothing seen at one value alone keeps a type from climbing past what it was.  It does
not if the old types cover what flows in (`Covers`): if the type of each reset phi is above
the join of its operands, and that of each reset pass-through result above what its
operation makes of its input.  The old types then lie above the equations of the update,
whose solution is the least that does (`UpdateSpec.least`), so no value comes out with a
type above its old one (`update_narrows`).
-/

import IrAnalysis.Proofs.UpdateOrder

namespace IrAnalysis
namespace PhiTypes

open IrAnalysis.Graph

variable {h : Hierarchy} {g : Graph} {seeds vs : List ValueId} {v : ValueId}

/-- **The types of the phis and pass-through results among `vs` cover what flows into them.** -/
structure Covers (h : Hierarchy) (g : Graph) (vs : List ValueId) : Prop where
  phi : ∀ v x p, v ∈ vs → g.value? v = some x → x.phi? = some p →
    (Ty.joinAll h (p.operands.map g.typeAt)).le h (g.typeAt v)
  pass : ∀ v i x w, v ∈ vs → g.instruction? i = some x → x.output = some v →
    x.operation.passesThrough = true → x.operands = [w] →
      (x.operation.outputType h (g.typeAt w)).le h (g.typeAt v)

namespace Covers

theorem flow_le (hc : Covers h g (resetSet g seeds)) (hg : Ready g) (hv : g.Hangs seeds v) :
    (g.flow h g.typeAt v).le h (g.typeAt v) := by
  have hmem := (mem_resetSet hg.inStep).2 hv
  rcases hg.inStep.hangs_cases hv with ⟨p, hp⟩ | ⟨x, w, hp, hx, hpass, -, -⟩
  · rw [flow_phi hp]
    rw [livePhi?_eq] at hp
    obtain ⟨x, hx, hxp⟩ := Option.bind_eq_some_iff.1 hp
    exact hc.phi v x p hmem hx hxp
  · obtain ⟨w, hops⟩ := hg.oneOperand v x hx hpass
    rw [flow_pass hp hx hpass hops]
    obtain ⟨i, hi, hix⟩ := Option.bind_eq_some_iff.1 hx
    exact hc.pass v i x w hmem hix (hg.inStep.output_of_definer? hi hix) hpass hops

/-- The old types lie above the equations of the update. -/
theorem above (hc : Covers h g (resetSet g seeds)) (hg : Ready g) :
    Above h g seeds g.typeAt where
  normal := hg.types.normal
  held _ _ := Ty.le_refl h _
  flow _ hv := hc.flow_le hg hv

end Covers

/-- **An update only narrows where the types covered what flows in**: every value comes out with a
type below its old one, also on loops, and the reset ones with types that solve their
equations. -/
theorem update_narrows (hg : g.Reachable) (ht : ProperTypes g) (hb : g.DimensionedBounds)
    (hone : ∀ i x, g.instruction? i = some x → x.operation.passesThrough = true →
      ∃ w, x.operands = [w])
    (seeds : List ValueId) (hc : Covers h g (resetSet g seeds)) :
    ∃ u, update h (.ok id) g seeds = .ok u ∧ EmptiesQueue h g seeds u.graph ∧
      Solves h g (resetSet g seeds) u.graph.typeAt ∧
      ∀ v, (u.graph.typeAt v).le h (g.typeAt v) := by
  have hready : Ready g := ⟨hg.inStep, ht, hb, .of_instructions hone⟩
  obtain ⟨u, hu, hs⟩ := update_spec_of_dimensioned (h := h) hready.inStep hb ht (f := id) seeds
    fun v _ _ _ => Ty.rename_id (ht.normal v)
  exact ⟨u, hu, hs.drained, hs.solves hready.inStep hready.oneOperand,
    hs.least _ (hc.above hready)⟩

/-- A number flows into a phi, which comes back to itself by a move.  Nothing is known yet of the
types of the two. -/
def wideLoop : Graph :=
  afterAll [.addBlock, .addBlock, .addEdge ⟨0⟩ ⟨1⟩, .addEdge ⟨1⟩ ⟨1⟩,
    .addInstruction ⟨0⟩ (.argument 0) [] (some (.prim .int)), .addPhi ⟨1⟩ .top,
    .addInstruction ⟨1⟩ .move [⟨1⟩] (some .top),
    .appendOperand ⟨1⟩ ⟨0⟩, .appendOperand ⟨1⟩ ⟨2⟩] (Graph.empty none)

/-- In the loop the phi and the move each have the type that flows in from the other, and an update
still narrows both to the number. -/
theorem update_narrows_wideLoop : resetSet wideLoop [⟨1⟩] = [⟨1⟩, ⟨2⟩] ∧
    Covers (.ofRoot ⟨0⟩) wideLoop [⟨1⟩, ⟨2⟩] ∧
    ∃ u, update (.ofRoot ⟨0⟩) (.ok id) wideLoop [⟨1⟩] = .ok u ∧
      u.graph.typeAt ⟨1⟩ = .prim .int ∧ u.graph.typeAt ⟨2⟩ = .prim .int ∧
      ∀ v, (u.graph.typeAt v).le (.ofRoot ⟨0⟩) (wideLoop.typeAt v) := by
  have hreset : resetSet wideLoop [⟨1⟩] = [⟨1⟩, ⟨2⟩] := by decide
  have htop : ∀ v ∈ [⟨1⟩, ⟨2⟩], wideLoop.typeAt v = .top := by decide
  have hcovers : Covers (.ofRoot ⟨0⟩) wideLoop [⟨1⟩, ⟨2⟩] := by
    constructor
    · intro v x p hv _ _
      rw [htop v hv]
      exact Ty.le_top _ _
    · intro v i x w hv _ _ _ _
      rw [htop v hv]
      exact Ty.le_top _ _
  have hpass : ∀ i x, wideLoop.instruction? i = some x → x.operation.passesThrough = true →
      x.operands.length = 1 := forall_instruction? (by decide)
  obtain ⟨u, hu, -, -, hle⟩ := update_narrows (h := .ofRoot ⟨0⟩) (Reachable.afterAll (.empty none) _)
    (.of_values (by decide)) (forall_instruction? (by decide))
    (fun i x hx hpasses => List.length_eq_one_iff.1 (hpass i x hx hpasses)) [⟨1⟩]
    (hreset ▸ hcovers)
  obtain ⟨t, ht⟩ : ∃ t, update (.ofRoot ⟨0⟩) (.ok id) wideLoop [⟨1⟩] = .ok t ∧
    t.graph.typeAt ⟨1⟩ = .prim .int ∧ t.graph.typeAt ⟨2⟩ = .prim .int := ⟨_, rfl, rfl, rfl⟩
  obtain rfl := Except.ok.inj (ht.1.symm.trans hu)
  exact ⟨hreset, hcovers, t, hu, ht.2.1, ht.2.2, hle⟩

end PhiTypes
end IrAnalysis
