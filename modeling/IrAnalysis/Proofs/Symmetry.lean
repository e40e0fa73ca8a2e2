/-
# Renamings that keep the class tree

A renaming is a symmetry of a class hierarchy if it only exchanges classes and keeps each
below the parent of what it was below.  It keeps the order of types, and so does its inverse; and
as joins and meets are bounds in that order, types may be renamed before or after they are
joined and met (`Ty.joinAll_rename`, `Ty.meet_rename`).

What a pass-through operation makes of a renamed type is then the renamed result, if the bound that
the operation may assume is renamed too (`Operation.outputType_rename`).
-/

import IrAnalysis.Proofs.TypeFlow
import Mathlib.Logic.Function.Basic

namespace IrAnalysis

namespace Hierarchy

variable {h : Hierarchy} {f k : ClassId → ClassId}

/-- **The renaming exchanges classes and keeps the tree.** -/
structure Symmetry (h : Hierarchy) (f : ClassId → ClassId) : Prop where
  bijective : Function.Bijective f
  root : f h.root = h.root
  parent : ∀ c, h.parent (f c) = (h.parent c).map f

/-- The inverse of a symmetry is one. -/
theorem Symmetry.exists_inverse (hf : h.Symmetry f) :
    ∃ k, h.Symmetry k ∧ (∀ c, k (f c) = c) ∧ ∀ c, f (k c) = c := by
  obtain ⟨k, hkf, hfk⟩ := Function.bijective_iff_has_inverse.1 hf.bijective
  refine ⟨k, ⟨Function.bijective_iff_has_inverse.2 ⟨f, hfk, hkf⟩, ?_, fun c => ?_⟩, hkf, hfk⟩
  · rw [← hf.root, hkf, hf.root]
  · have hparent := congrArg (Option.map k) (hf.parent (k c))
    rw [hfk, Option.map_map, Function.LeftInverse.comp_eq_id hkf, Option.map_id_fun, id] at hparent
    exact hparent.symm

/-- **A symmetry takes the tree into itself.** -/
theorem Symmetry.mapsInto (hf : h.Symmetry f) : h.MapsInto f h where
  map_root := hf.root
  below {c d} hcd := by
    refine Relation.ReflTransGen.lift f (fun x p hp => ?_) c d hcd
    show h.parent (f x) = some (f p)
    rw [hf.parent, hp]
    rfl

end Hierarchy

namespace Ty

variable {h : Hierarchy} {f k : ClassId → ClassId} {a b : Ty} {ts : List Ty}

/-- One renaming takes back another. -/
theorem rename_cancel (hk : ∀ c, k (f c) = c) (ha : a.IsNormal) : (a.rename f).rename k = a := by
  rw [rename_rename, Function.LeftInverse.comp_eq_id hk, rename_id ha]

section Inverse

variable (hf : h.Symmetry f)
include hf

theorem le_of_rename_le (ha : a.IsNormal) (hb : b.IsNormal)
    (hab : (a.rename f).le h (b.rename f)) : a.le h b := by
  obtain ⟨k, hk, hkf, -⟩ := hf.exists_inverse
  have hback := le_rename hk.mapsInto hab
  rwa [rename_cancel hkf ha, rename_cancel hkf hb] at hback

/-- Every type in normal form is the new name of one. -/
theorem exists_rename_eq (ha : a.IsNormal) : ∃ b : Ty, b.IsNormal ∧ b.rename f = a := by
  obtain ⟨k, -, -, hfk⟩ := hf.exists_inverse
  exact ⟨a.rename k, rename_isNormal k ha, rename_cancel hfk ha⟩

/-- **Types are joined as well under their new names.** -/
theorem joinAll_rename (hts : ∀ t ∈ ts, t.IsNormal) :
    joinAll h (ts.map (rename f)) = (joinAll h ts).rename f := by
  have hnormal := joinAll_isNormal h ts
  refine le_antisymm (h := h) (joinAll_isNormal h _) (rename_isNormal f hnormal) ?_ ?_
  · refine joinAll_le_iff.2 fun t ht => ?_
    obtain ⟨s, hs, rfl⟩ := List.mem_map.1 ht
    exact le_rename hf.mapsInto (le_joinAll hs)
  · obtain ⟨u, hu, huf⟩ := exists_rename_eq hf (joinAll_isNormal h (ts.map (rename f)))
    rw [← huf]
    refine le_rename hf.mapsInto (joinAll_le_iff.2 fun t ht => ?_)
    refine le_of_rename_le hf (hts t ht) hu ?_
    rw [huf]
    exact le_joinAll (List.mem_map_of_mem ht)

/-- **Types are met as well under their new names.** -/
theorem meet_rename (ha : a.IsNormal) (hb : b.IsNormal) :
    (a.rename f).meet h (b.rename f) = (a.meet h b).rename f := by
  have hnormal := meet_isNormal h a b
  refine le_antisymm (h := h) (meet_isNormal h _ _) (rename_isNormal f hnormal) ?_ ?_
  · obtain ⟨u, hu, huf⟩ := exists_rename_eq hf (meet_isNormal h (a.rename f) (b.rename f))
    rw [← huf]
    refine le_rename hf.mapsInto (le_meet_iff.2 ⟨?_, ?_⟩)
    · refine le_of_rename_le hf hu ha ?_
      rw [huf]
      exact meet_le_left h _ _
    · refine le_of_rename_le hf hu hb ?_
      rw [huf]
      exact meet_le_right h _ _
  · exact le_meet_iff.2 ⟨le_rename hf.mapsInto (meet_le_left h a b),
      le_rename hf.mapsInto (meet_le_right h a b)⟩

end Inverse

theorem asNonNull_rename (ha : a.IsNormal) : (a.rename f).asNonNull = a.asNonNull.rename f := by
  rcases a with _ | _ | p | _ | ⟨s, n⟩
  case ref =>
    rw [rename_ref (isNormal_ref_iff.1 ha)]
    exact (rename_ref (Or.inl rfl)).symm
  all_goals rfl

end Ty

namespace Operation

variable {h : Hierarchy} {f k : ClassId → ClassId} {op : Operation} {a : Ty}

/-- The operation with the bound that it may assume in new names. -/
def rename (f : ClassId → ClassId) : Operation → Operation
  | assume fact => assume (fact.rename f)
  | op => op

theorem rename_cancel (hk : ∀ c, k (f c) = c) (hop : op.IsProper) :
    (op.rename f).rename k = op := by
  unfold rename
  cases op with
  | assume fact =>
    cases fact with
    | upperBound bound => simp [TypeFact.rename, Ty.rename_cancel hk (hop bound rfl).1]
    | _ => rfl
  | _ => rfl

/-- **What an operation makes of a type is renamed with the type and the operation.** -/
theorem outputType_rename (hf : h.Symmetry f) (hop : op.IsProper) (ha : a.IsNormal) :
    (op.rename f).outputType h (a.rename f) = (op.outputType h a).rename f := by
  cases op with
  | assume fact =>
    cases fact with
    | unknown => rfl
    | nonNull => exact Ty.asNonNull_rename ha
    | upperBound bound => exact Ty.meet_rename hf ha (hop bound rfl).1
  | _ => rfl

end Operation
end IrAnalysis
