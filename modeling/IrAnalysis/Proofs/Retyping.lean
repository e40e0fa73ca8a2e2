/-
# Graphs that differ in their types alone

Narrowing a type, moving the types to new names, resetting and recomputing them
change nothing but types: what is read of a graph besides is as it was.
-/

import IrAnalysis.Proofs.GraphViews

namespace IrAnalysis

namespace Value

/-- The value with its type left out. -/
def untyped (x : Value) : Value := { x with type := .bottom }

/-- Values that differ in their types alone. -/
theorem eq_of_untyped_eq {x y : Value} (h : x.untyped = y.untyped) :
    y = { x with type := y.type } := by
  obtain ⟨tx, dx, ux, px, lx⟩ := x
  obtain ⟨ty, dy, uy, py, ly⟩ := y
  simp only [untyped, mk.injEq, true_and] at h
  obtain ⟨rfl, rfl, rfl, rfl⟩ := h
  rfl

end Value

namespace Graph

variable {g g' g'' : Graph} {b : BlockId} {v w : ValueId} {i : InstId}

/-- **The two graphs differ in the types of their values alone.** -/
structure SameButTypes (g g' : Graph) : Prop where
  method : g'.method = g.method
  blocks : g'.blocks = g.blocks
  instructions : g'.instructions = g.instructions
  values : g'.values.map Value.untyped = g.values.map Value.untyped

namespace SameButTypes

theorem refl (g : Graph) : SameButTypes g g := ⟨rfl, rfl, rfl, rfl⟩

theorem symm (h : SameButTypes g g') : SameButTypes g' g :=
  ⟨h.method.symm, h.blocks.symm, h.instructions.symm, h.values.symm⟩

theorem trans (h : SameButTypes g g') (h' : SameButTypes g' g'') : SameButTypes g g'' :=
  ⟨h'.method.trans h.method, h'.blocks.trans h.blocks, h'.instructions.trans h.instructions,
    h'.values.trans h.values⟩

theorem block? (h : SameButTypes g g') (b : BlockId) : g'.block? b = g.block? b := by
  rw [Graph.block?, h.blocks, Graph.block?]

theorem blockAt (h : SameButTypes g g') (b : BlockId) : g'.blockAt b = g.blockAt b := by
  rw [Graph.blockAt, h.block?, Graph.blockAt]

theorem instruction? (h : SameButTypes g g') (i : InstId) :
    g'.instruction? i = g.instruction? i := by
  rw [Graph.instruction?, h.instructions, Graph.instruction?]

theorem operandsOf (h : SameButTypes g g') (i : InstId) : g'.operandsOf i = g.operandsOf i := by
  rw [Graph.operandsOf, h.instruction?, Graph.operandsOf]

theorem slot? (h : SameButTypes g g') (v : ValueId) :
    (g'.slot? v).map Value.untyped = (g.slot? v).map Value.untyped := by
  rw [Graph.slot?, Graph.slot?, ← List.getElem?_map, ← List.getElem?_map, h.values]

theorem valueAt (h : SameButTypes g g') (v : ValueId) :
    g'.valueAt v = { g.valueAt v with type := g'.typeAt v } := by
  rw [typeAt_eq]
  refine Value.eq_of_untyped_eq ?_
  have hslot := h.slot? v
  unfold Graph.valueAt
  cases hg : g.slot? v <;> cases hg' : g'.slot? v <;> simp_all

/-- What does not look at the type is the same. -/
theorem view {β : Type} (f : Value → β) (hf : ∀ x t, f { x with type := t } = f x)
    (h : SameButTypes g g') (v : ValueId) : f (g'.valueAt v) = f (g.valueAt v) := by
  rw [h.valueAt]
  exact hf _ _

theorem livePhi? (h : SameButTypes g g') (v : ValueId) :
    (g'.valueAt v).livePhi? = (g.valueAt v).livePhi? :=
  h.view (·.livePhi?) (fun _ _ => rfl) v

theorem hasValue (h : SameButTypes g g') (v : ValueId) : g'.HasValue v ↔ g.HasValue v := by
  have hslot := h.slot? v
  unfold HasValue
  cases hg : g.slot? v <;> cases hg' : g'.slot? v <;> simp_all

end SameButTypes

theorem sameButTypes_setType (g : Graph) (v : ValueId) (t : Ty) :
    SameButTypes g (g.setType v t) := by
  refine ⟨rfl, rfl, rfl, List.ext_getElem? fun k => ?_⟩
  rw [List.getElem?_map, List.getElem?_map, setType, modifyValue, List.getElem?_modify]
  split
  · cases g.values[k]? <;> rfl
  · cases g.values[k]? <;> rfl

theorem typeAt_setType {t : Ty} (hv : g.HasValue v) :
    (g.setType v t).typeAt w = if w = v then t else g.typeAt w := by
  rw [typeAt_eq, setType, valueAt_modifyValue (Or.inr hv), typeAt_eq]
  split <;> rfl

/-- Graphs that differ in their types alone are the same if the types are. -/
theorem SameButTypes.eq (hs : SameButTypes g g') (htypes : ∀ v, g'.typeAt v = g.typeAt v) :
    g' = g := by
  have hvalues : g'.values = g.values := by
    refine List.ext_getElem? fun n => ?_
    have hslot := hs.slot? ⟨n⟩
    have hvalue := hs.valueAt ⟨n⟩
    rw [htypes, typeAt_eq] at hvalue
    unfold Graph.valueAt at hvalue
    change g'.slot? ⟨n⟩ = g.slot? ⟨n⟩
    cases hg : g.slot? ⟨n⟩ <;> cases hg' : g'.slot? ⟨n⟩ <;> simp_all
  have hmethod := hs.method
  have hblocks := hs.blocks
  have hinsts := hs.instructions
  cases g
  cases g'
  simp_all

end Graph
end IrAnalysis
