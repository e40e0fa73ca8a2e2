/-
# What a renaming makes of types

A renaming works on the classes that a type names.  The least form of a type can be taken before
it or after it (`Ty.normalize_rename`), and two renamings one after the other are one
(`Ty.rename_rename`), also for types that are not in normal form.

The order of types asks nothing of the tree of classes but which of them lie above which.  So a
map of classes that takes one tree into another, the root to the root and what lies above a class
to what lies above its image (`Hierarchy.MapsInto`), keeps the order of the types
(`Ty.le_rename`).
-/

import IrAnalysis.Proofs.TypeOrder

namespace IrAnalysis

/-- **The map takes the root to the root, and what lies above a class to what lies above its
image.** -/
structure Hierarchy.MapsInto (f : ClassId → ClassId) (h h' : Hierarchy) : Prop where
  map_root : f h.root = h'.root
  below : ∀ {c d}, h.Below c d → h'.Below (f c) (f d)

variable {h h' : Hierarchy} {f : ClassId → ClassId}

namespace Shape

theorem rename_id (s : Shape) : s.rename id = s := by
  rcases s with c | ⟨p | c, dims⟩ <;> rfl

theorem Below.rename {s t : Shape} (hf : h.MapsInto f h') (hst : s.Below h t) :
    (s.rename f).Below h' (t.rename f) := by
  rcases s with c | ⟨p | c, m⟩ <;> rcases t with d | ⟨q | d, n⟩
  case cls.cls => exact hf.below hst
  case array.cls.array.cls => exact ⟨hst.1, hf.below hst.2⟩
  case array.prim.array.prim => exact hst
  case array.prim.cls | array.cls.cls =>
    have hd : d = h.root := hst
    rw [hd]
    exact hf.map_root
  all_goals exact hst.elim

end Shape

namespace Ty

variable {a b : Ty}

/-- A reference in normal form is renamed by its shape. -/
theorem rename_ref {s : Shape} {n : Nullness} (hn : n.IsDefinite) :
    (ref s n).rename f = ref (s.rename f) n := by
  rcases s with c | ⟨p | c, dims⟩
  case array.prim => rfl
  all_goals exact ofShape_of_isDefinite hn

/-- The least form can be taken before or after. -/
theorem normalize_rename (f : ClassId → ClassId) (a : Ty) :
    (a.rename f).normalize = a.normalize.rename f := by
  rcases a with _ | _ | p | _ | ⟨c | ⟨p | c, dims⟩, n⟩
  case ref.cls | ref.array.prim | ref.array.cls => cases n <;> rfl
  all_goals rfl

theorem rename_isNormal (f : ClassId → ClassId) (ha : a.IsNormal) : (a.rename f).IsNormal :=
  (normalize_rename f a).trans (congrArg (rename f) ha)

theorem rename_isProper (f : ClassId → ClassId) (ha : a.IsProper) : (a.rename f).IsProper := by
  rcases a with _ | _ | p | _ | ⟨c | ⟨p | c, dims⟩, n⟩
  case ref.cls => exact isProper_ofShape rfl n
  case ref.array.cls => exact isProper_ofShape (s := .array (.cls (f c)) dims) ha n
  all_goals exact ha

/-- Where every class keeps its name a type in normal form stays as it is. -/
theorem rename_id (ha : a.IsNormal) : a.rename id = a := by
  rcases a with _ | _ | p | _ | ⟨s, n⟩
  case ref => rw [rename_ref (isNormal_ref_iff.1 ha), Shape.rename_id]
  all_goals rfl

/-- **Renaming step by step is renaming once.** -/
theorem rename_rename (f g : ClassId → ClassId) (a : Ty) :
    (a.rename f).rename g = a.rename (g ∘ f) := by
  rcases a with _ | _ | p | _ | ⟨c | ⟨p | c, dims⟩, n⟩
  case ref.cls | ref.array.cls => cases n <;> rfl
  all_goals rfl

theorem Below.rename (hf : h.MapsInto f h') (ha : a.IsNormal) (hb : b.IsNormal)
    (hab : a.Below h b) : (a.rename f).Below h' (b.rename f) := by
  rcases a with _ | _ | p | _ | ⟨s, m⟩ <;> rcases b with _ | _ | q | _ | ⟨t, n⟩
  case ref.ref =>
    rw [rename_ref (isNormal_ref_iff.1 ha), rename_ref (isNormal_ref_iff.1 hb)]
    exact ⟨hab.1.rename hf, hab.2⟩
  case null.ref =>
    rw [rename_ref (isNormal_ref_iff.1 hb)]
    exact hab
  case ref.top => exact below_top _
  all_goals first | exact hab | exact hab.elim

/-- **A map that keeps the order of the classes keeps the order of the types.** -/
theorem le_rename (hf : h.MapsInto f h') (hab : a.le h b) : (a.rename f).le h' (b.rename f) := by
  rw [le_iff_below] at hab ⊢
  rw [normalize_rename, normalize_rename]
  exact hab.rename hf (isNormal_normalize a) (isNormal_normalize b)

end Ty
end IrAnalysis
