/-
# Types carried over to new names

Classes are renamed, and some of them merged, by every phase that lays a lens on the others.  As
long as a map of the classes leaves the root where it is and keeps subtypes, types that it sends
together stay in order, arrays and `null` with them; their join may only get lower for it, as
classes that were merged have more in common (`Ty.KeepsOrder`).

What becomes of a type on its way through lenses does not depend on where the way is cut: renaming
it for each layer, or from lens to lens, is renaming it once for all of them
(`types_carry_over`), also where it is not in normal form.  There the first renaming already
takes it into normal form; only an array of a primitive kind, which names no class, stays as it is
written on every way.
-/

import IrAnalysis.Proofs.Ancestors
import IrAnalysis.Proofs.Refining
import Mathlib.Data.List.Chain

namespace IrAnalysis

variable {h : Hierarchy} {f : ClassId → ClassId}

/-- **A map that leaves the root where it is and keeps subtypes takes the tree into itself.** -/
theorem Hierarchy.mapsInto_of_isSubtype (hroot : f h.root = h.root)
    (hsub : ∀ c d, h.isSubtype c d = true → h.isSubtype (f c) (f d) = true) : h.MapsInto f h where
  map_root := hroot
  below {c d} hcd := isSubtype_iff_below.1 (hsub c d (isSubtype_iff_below.2 hcd))

namespace Ty

/-- **Types that are renamed stay in order**, and the join of the renamed types is below the renamed
join.  None of it is a violation. -/
structure KeepsOrder (h : Hierarchy) (f : ClassId → ClassId) : Prop where
  le : ∀ a b : Ty, a.IsProper → b.IsProper → a.tryLe h b = .ok true →
    ∃ a' b', a.tryRename (.ok f) = .ok a' ∧ b.tryRename (.ok f) = .ok b' ∧
      a'.tryLe h b' = .ok true
  join : ∀ a b : Ty, a.IsProper → b.IsProper → ∃ a' b' j j',
    a.tryRename (.ok f) = .ok a' ∧ b.tryRename (.ok f) = .ok b' ∧ a'.tryJoin h b' = .ok j ∧
      (do (← a.tryJoin h b).tryRename (.ok f)) = .ok j' ∧ j.tryLe h j' = .ok true

theorem join_rename_le (hf : h.MapsInto f h) (a b : Ty) :
    ((a.rename f).join h (b.rename f)).le h ((a.join h b).rename f) :=
  join_le_iff.2 ⟨le_rename hf (le_join_left h a b), le_rename hf (le_join_right h a b)⟩

theorem keepsOrder_of_mapsInto (hf : h.MapsInto f h) : KeepsOrder h f where
  le a b ha hb hab := by
    rw [tryLe_of_proper h ha hb] at hab
    refine ⟨_, _, tryRename_ok f ha, tryRename_ok f hb, ?_⟩
    rw [tryLe_of_proper h (rename_isProper f ha) (rename_isProper f hb),
      le_rename hf (Except.ok.inj hab)]
  join a b ha hb := by
    have ha' := rename_isProper f ha
    have hb' := rename_isProper f hb
    have hj := join_isProper (h := h) ha hb
    refine ⟨_, _, _, (a.join h b).rename f, tryRename_ok f ha, tryRename_ok f hb,
      tryJoin_of_proper h ha' hb', ?_, ?_⟩
    · rw [tryJoin_of_proper h ha hb]
      exact tryRename_ok f hj
    · rw [tryLe_of_proper h (join_isProper ha' hb') (rename_isProper f hj), join_rename_le hf]

/-! ### Renaming in steps -/

/-- **Renaming step by step is renaming once**, and refuses the same types. -/
theorem tryRename_tryRename (f g : ClassId → ClassId) (t : Ty) :
    (do (← t.tryRename (.ok f)).tryRename (.ok g)) = t.tryRename (.ok (g ∘ f)) := by
  by_cases ht : t.IsProper
  · rw [tryRename_ok f ht, tryRename_ok _ ht, ← rename_rename]
    exact tryRename_ok g (rename_isProper f ht)
  · rcases t with _ | _ | _ | _ | ⟨c | ⟨p | c, dims⟩, n⟩
    case ref.array.cls =>
      have hd : Shape.isDegenerate (.array (.cls c) dims) = true := Bool.not_eq_false _ ▸ ht
      simp [tryRename, refuseIf, hd, bind, Except.bind]
    case ref.cls => exact absurd rfl ht
    all_goals rfl

/-- A type through maps of the classes, one after the other. -/
def renameAll (maps : List (ClassId → ClassId)) (t : Ty) : Checked Ty :=
  maps.foldlM (fun t f => t.tryRename (.ok f)) t

/-- Where there is a map at all, going through the maps with the type is going through them with
its classes. -/
theorem renameAll_cons (f : ClassId → ClassId) (maps : List (ClassId → ClassId)) (t : Ty) :
    renameAll (f :: maps) t = t.tryRename (.ok fun c => maps.foldl (fun c f => f c) (f c)) := by
  induction maps generalizing f t with
  | nil => exact bind_pure _
  | cons g maps ih =>
    show (do renameAll (g :: maps) (← t.tryRename (.ok f))) = _
    simp only [ih]
    exact tryRename_tryRename f _ t

end Ty

namespace Lens

variable {run : Run} {lenses : List Lens} {since lens : Lens} {path : List Lens}
  {layers : List Layer}

/-- A type on the way through lenses, looked up in each of them since the one before. -/
def carry (t : Ty) (since : Lens) : List Lens → Checked Ty
  | [] => .ok t
  | lens :: path => do carry (← t.tryRename (lens.types (some since))) lens path

/-- Lenses each of which rests on the one before. -/
def IsPath (path : List Lens) : Prop := path.IsChain fun a b => b.restsOn a = true

/-- The last lens of a path rests on the first. -/
theorem Run.Apart.restsOn_getLast (h : Run.Apart run lenses)
    (hmem : ∀ l ∈ since :: path, l ∈ lenses) (hpath : IsPath (since :: path)) :
    ((since :: path).getLast (List.cons_ne_nil _ _)).restsOn since = true := by
  induction path generalizing since with
  | nil => exact restsOn_refl since
  | cons lens path ih =>
    obtain ⟨hrests, hrest⟩ := List.isChain_cons_cons.1 hpath
    obtain ⟨hsince, hmore⟩ := List.forall_mem_cons.1 hmem
    have hlast := hmore _ (List.getLast_mem (List.cons_ne_nil lens path))
    rw [List.getLast_cons (List.cons_ne_nil _ _)]
    exact h.restsOn_trans hsince (hmore _ List.mem_cons_self) hlast (ih hmore hrest) hrests

/-- **From lens to lens is from the first to the last.** -/
theorem Run.Apart.carry_eq (h : Run.Apart run lenses)
    (hmem : ∀ l ∈ since :: lens :: path, l ∈ lenses) (hpath : IsPath (since :: lens :: path))
    (t : Ty) : carry t since (lens :: path) =
      t.tryRename (((lens :: path).getLast (List.cons_ne_nil _ _)).types (some since)) := by
  induction path generalizing since lens t with
  | nil => exact bind_pure _
  | cons next path ih =>
    obtain ⟨hrests, hrest⟩ := List.isChain_cons_cons.1 hpath
    obtain ⟨hsince, hmore⟩ := List.forall_mem_cons.1 hmem
    have hlens := hmore _ List.mem_cons_self
    have hlast := hmore _ (List.getLast_mem (List.cons_ne_nil lens (next :: path)))
    have hcomposes : Composes Lens.types since lens _ := h.composes hsince hlens hlast hrests
      (h.restsOn_getLast hmore hrest) fun _ hl => Layer.renameType_of_untouched hl
    obtain ⟨f, g, hf, hg, hfg⟩ := hcomposes.steps
    show (do carry (← t.tryRename (lens.types (some since))) lens (next :: path)) = _
    -- From `lens` on the path is one lookup by induction, and lookups compose there.
    simp only [ih hmore hrest]
    rw [List.getLast_cons (List.cons_ne_nil _ _)] at hg hfg ⊢
    rw [hf, hg, hfg]
    exact Ty.tryRename_tryRename f g t

/-- **From the identity on it is the whole chain.** -/
theorem Run.Apart.carry_identity (h : Run.Apart run lenses)
    (hmem : ∀ l ∈ lens :: path, l ∈ lenses) (hpath : IsPath (lens :: path)) (t : Ty) :
    carry t .identity (lens :: path) =
      ((lens :: path).getLast (List.cons_ne_nil _ _)).rewriteType t := by
  obtain ⟨layers, hs⟩ :=
    Stacked.exists_identity ((lens :: path).getLast (List.cons_ne_nil _ _))
  have hlast := hmem _ (List.getLast_mem (List.cons_ne_nil lens path))
  have hsince : ∀ base ∈ some Lens.identity, base ∈ lenses := by
    rintro _ ⟨⟩
    exact h.identity_mem
  have hfirst := h.goesThrough hlast hsince hs
  have hwhole : GoesThrough _ none layers := h.goesThrough hlast nofun hs
  rw [h.carry_eq (List.forall_mem_cons.2 ⟨h.identity_mem, hmem⟩)
    (List.isChain_cons_cons.2 ⟨restsOn_identity lens, hpath⟩), rewriteType, hfirst.types,
    hwhole.types]

/-- Where no layer was laid the lens is the one that it was. -/
theorem Stacked.eq_base (hs : Stacked since [] lens) : lens = since := by
  generalize hnone : [] = layers at hs
  cases hs with
  | refl => rfl
  | lay serial layer _ => simp at hnone

/-- A lens goes through its layers with a type as it does with classes. -/
theorem renameAll_layers (hs : Stacked .identity layers lens) (hne : layers ≠ []) (t : Ty) :
    Ty.renameAll (layers.map Layer.renameType) t = lens.rewriteType t := by
  obtain ⟨layer, newer, rfl⟩ := List.exists_cons_of_ne_nil hne
  rw [List.map_cons, Ty.renameAll_cons, rewriteType, types, through, layersSince_none hs,
    List.append_nil]
  refine congrArg t.tryRename (congrArg Except.ok (funext fun c => ?_))
  rw [foldl_filter_keep fun _ hl => Layer.renameType_of_untouched hl, List.foldl_map]
  rfl

end Lens

/-- **Types carried over.**  Under a map of the classes that leaves the root where it is and keeps
subtypes types stay in order, and joins can only get lower; and under any maps, step by step is at
once: for two maps, for the layers of a lens, and on a path of lenses from the identity.  Where
there is no layer nothing is renamed, which makes a difference for types out of normal form. -/
theorem types_carry_over :
    (∀ (h : Hierarchy) (f : ClassId → ClassId), f h.root = h.root →
      (∀ c d, h.isSubtype c d = true → h.isSubtype (f c) (f d) = true) → Ty.KeepsOrder h f) ∧
    (∀ (f g : ClassId → ClassId) (t : Ty), t.IsProper → ∃ t' t'', t.tryRename (.ok f) = .ok t' ∧
      t'.tryRename (.ok g) = .ok t'' ∧ t.tryRename (.ok (g ∘ f)) = .ok t'') ∧
    (∀ (lens : Lens) (layers : List Layer), Lens.Stacked .identity layers lens → ∀ t : Ty,
      (layers = [] → t.IsNormal ∧ t.IsProper) →
        Ty.renameAll (layers.map Layer.renameType) t = lens.rewriteType t) ∧
    ∀ (run : Lens.Run) (lenses : List Lens), run.Made lenses → ∀ (lens : Lens) (path : List Lens),
      (∀ l ∈ lens :: path, l ∈ lenses) → Lens.IsPath (lens :: path) → ∀ t : Ty,
        Lens.carry t .identity (lens :: path) =
          ((lens :: path).getLast (List.cons_ne_nil _ _)).rewriteType t := by
  refine ⟨fun h f hroot hsub => ?_, fun f g t ht => ?_, fun lens layers hs t ht => ?_,
    fun run lenses hmade lens path hmem hpath t => ?_⟩
  · exact Ty.keepsOrder_of_mapsInto (Hierarchy.mapsInto_of_isSubtype hroot hsub)
  · refine ⟨_, _, Ty.tryRename_ok f ht, Ty.tryRename_ok g (Ty.rename_isProper f ht), ?_⟩
    rw [Ty.tryRename_ok _ ht, Ty.rename_rename]
  · cases layers with
    | nil =>
      -- Nothing is laid on the identity, and that takes types into normal form only.
      obtain ⟨hnormal, hproper⟩ := ht rfl
      obtain rfl := hs.eq_base
      have hid : Lens.identity.rewriteType t = .ok (t.rename id) := Ty.tryRename_ok id hproper
      rw [hid, Ty.rename_id hnormal]
      rfl
    | cons layer layers => exact Lens.renameAll_layers hs (List.cons_ne_nil _ _) t
  · exact hmade.apart.carry_identity hmem hpath t

namespace Lens

/-- A phase that merges one class into another. -/
def merging (c d : ClassId) : Layer := { Layer.empty with types := Table.empty.insert c d }

def onceMerged : Lens := .nested 0 (merging ⟨1⟩ ⟨2⟩) .identity

/-- What the first phase merged goes on into a third class. -/
def twiceMerged : Lens := .nested 1 (merging ⟨2⟩ ⟨3⟩) onceMerged

theorem made_twiceMerged : Run.Made ⟨2⟩ [twiceMerged, onceMerged, .identity] :=
  .build (merging ⟨2⟩ ⟨3⟩) (.build (merging ⟨1⟩ ⟨2⟩) .start (List.mem_singleton_self _))
    List.mem_cons_self

/-- Two classes side by side are merged, and then moved on, with arrays of them and with references
that are written out of normal form. -/
theorem types_carry_over_twiceMerged :
    Ty.KeepsOrder (.ofRoot ⟨0⟩) (merging ⟨1⟩ ⟨2⟩).renameType ∧
      Ty.renameAll ([merging ⟨1⟩ ⟨2⟩, merging ⟨2⟩ ⟨3⟩].map Layer.renameType)
        (.ref (.cls ⟨1⟩) .null) = .ok .null ∧
      Run.Made ⟨2⟩ [twiceMerged, onceMerged, .identity] ∧
      carry (.ref (.array (.cls ⟨1⟩) 2) .maybe) .identity [onceMerged, twiceMerged] =
        .ok (.ref (.array (.cls ⟨3⟩) 2) .maybe) := by
  obtain ⟨horder, -, hlayers, hpath⟩ := types_carry_over
  refine ⟨horder _ _ rfl fun c d hcd => ?_, ?_, made_twiceMerged, ?_⟩
  · rw [Hierarchy.isSubtype, List.contains_iff_mem, ← Hierarchy.below_iff_mem_lineage] at hcd ⊢
    by_cases hd : d = ⟨0⟩
    · subst hd
      exact Hierarchy.below_root _
    · by_cases hc : c = d
      · exact hc ▸ Relation.ReflTransGen.refl
      · exact absurd hcd (Hierarchy.not_below_ofRoot hd hc)
  · have hs : Stacked .identity [merging ⟨1⟩ ⟨2⟩, merging ⟨2⟩ ⟨3⟩] twiceMerged :=
      .lay 1 _ (.lay 0 _ .refl)
    rw [hlayers twiceMerged _ hs _ nofun]
    rfl
  · rw [hpath _ _ made_twiceMerged onceMerged [twiceMerged] (by simp) (List.isChain_pair.2 rfl)]
    rfl

/-- To be looked up in the identity takes a type into normal form, and to go through no layer leaves
it as it is written. -/
example :
    Ty.renameAll [] (.ref (.cls ⟨1⟩) .null) = .ok (.ref (.cls ⟨1⟩) .null) ∧
      Lens.identity.rewriteType (.ref (.cls ⟨1⟩) .null) = .ok .null :=
  ⟨rfl, rfl⟩

end Lens
end IrAnalysis
