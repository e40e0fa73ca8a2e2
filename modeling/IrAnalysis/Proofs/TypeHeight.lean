/-
# How far types can climb

On the way up from type to type each step leaves something behind for good: `bottom`, a class of the
lineage, arrays, the absence of `null`, or for `top` whatever there was.  `Ty.rank` counts what was
left so far, and so a way up is bounded by the deepest class (`Ty.rank_add_length_le`), whatever the
dimensions of its arrays.

The bound is met.  The way up through the arrays of a deepest class (`Ty.longestClimb`) leaves one
thing at a time, and so four more steps than that class is deep is exactly how far types can climb
(`Ty.climbs_end`).
-/

import IrAnalysis.Proofs.TypeFlow
import Mathlib.Data.List.Chain
import Mathlib.Order.Lattice.Nat

namespace IrAnalysis

/-- **A lineage goes up step by step.** -/
theorem IsLineage.isChain {α : Type} {up : α → List α} (hup : IsLineage up) (a : α) :
    (up a).IsChain fun x y => y ∈ up x ∧ y ≠ x := by
  refine List.isChain_iff_forall_rel_of_append_cons_cons.2 fun {x y before after} hsplit => ?_
  have hx : x :: y :: after <:+ up a := ⟨before, hsplit.symm⟩
  have hupx := hup.tail hx
  have hupy := hup.tail ((List.suffix_cons x _).trans hx)
  refine ⟨hupx ▸ List.mem_cons_of_mem _ List.mem_cons_self, ?_⟩
  rintro rfl
  have hlength := congrArg List.length (hupy.symm.trans hupx)
  simp at hlength

namespace Hierarchy

/-- Some class lies deepest, as only finitely many are declared. -/
theorem exists_isGreatest_depth (h : Hierarchy) : ∃ D, IsGreatest (Set.range h.depth) D := by
  have hbound : BddAbove (Set.range h.depth) := by
    refine ⟨h.height, ?_⟩
    rintro _ ⟨c, rfl⟩
    have hc := h.lineage_length_le_height c
    rw [length_lineage] at hc
    exact Nat.le_of_succ_le hc
  have hsome : (Set.range h.depth).Nonempty := ⟨_, h.root, rfl⟩
  exact ⟨sSup (Set.range h.depth), Nat.sSup_mem hsome hbound, fun _ hn => le_csSup hbound hn⟩

theorem isGreatest_depth_ofRoot (root : ClassId) :
    IsGreatest (Set.range (ofRoot root).depth) 1 := by
  obtain ⟨c, hc⟩ := (ofRoot root).exists_depth_pos
  refine ⟨⟨c, Nat.le_antisymm (depth_ofRoot_le root c) hc⟩, ?_⟩
  rintro _ ⟨c, rfl⟩
  exact depth_ofRoot_le root c

end Hierarchy

namespace Ty

variable {h : Hierarchy} {a b first : Ty} {rest : List Ty} {c : ClassId}

/-- **On the way up each type lies strictly below the next one.** -/
structure Climbs (h : Hierarchy) (ts : List Ty) : Prop where
  proper : ∀ t ∈ ts, t.IsProper
  isChain : ts.IsChain fun a b => a.tryLt h b = .ok true

theorem tryLt_eq_ok_true_iff (ha : a.IsProper) (hb : b.IsProper) :
    a.tryLt h b = .ok true ↔ a.normalize ≠ b.normalize ∧ a.le h b := by
  rw [tryLt, tryLe_of_proper h ha hb]
  by_cases he : a.normalize = b.normalize
  · simp [he]
  · simp [he]

/-! ### No way up is longer -/

theorem rank_normalize_lt (hne : a.normalize ≠ b.normalize) (hab : a.le h b) :
    a.normalize.rank h < b.normalize.rank h := by
  refine rank_lt_of_le (isNormal_normalize a) (isNormal_normalize b) ?_ hne
  exact normalize_le_iff.2 (le_normalize_iff.2 hab)

/-- **Each step up counts**, from where the way starts. -/
theorem rank_add_length_le (hclimb : Climbs h (first :: rest)) :
    first.normalize.rank h + rest.length ≤ h.height + 3 := by
  induction rest generalizing first with
  | nil => exact rank_le h _
  | cons next rest ih =>
    obtain ⟨hproper, hchain⟩ := hclimb
    rw [List.isChain_cons_cons] at hchain
    rw [List.forall_mem_cons] at hproper
    obtain ⟨hne, hle⟩ :=
      (tryLt_eq_ok_true_iff hproper.1 (hproper.2 next List.mem_cons_self)).1 hchain.1
    have hstep := rank_normalize_lt hne hle
    have hrest := ih ⟨hproper.2, hchain.2⟩
    rw [List.length_cons]
    omega

/-! ### One way up is as long -/

theorem tryLt_of_below (ha : a.IsNormal) (hb : b.IsNormal) (hap : a.IsProper) (hbp : b.IsProper)
    (hne : a ≠ b) (hab : a.Below h b) : a.tryLt h b = .ok true := by
  rw [tryLt_eq_ok_true_iff hap hbp, le_iff_below, ha.eq, hb.eq]
  exact ⟨hne, hab⟩

/-- What a way up leaves after `bottom`: the arrays of the lineage of a class, those of the root,
the absence of `null`, and references at all. -/
def longestClimb (h : Hierarchy) (c : ClassId) : List Ty :=
  ((Shape.array (.cls c) 1).lineage h).map (ref · .nonNull) ++ [ref (.cls h.root) .maybe, top]

theorem length_longestClimb (h : Hierarchy) (c : ClassId) :
    (longestClimb h c).length = h.depth c + 4 := by
  simp [longestClimb, Shape.lineage, h.length_lineage]

theorem mem_longestClimb (ha : a ∈ longestClimb h c) :
    a.IsNormal ∧ a.IsProper ∧ a ≠ bottom := by
  rcases List.mem_append.1 ha with ha | ha
  · obtain ⟨s, hs, rfl⟩ := List.mem_map.1 ha
    have hproper := (Shape.below_iff_mem_lineage.2 hs).isDegenerate rfl
    exact ⟨isNormal_ref_iff.2 (Or.inl rfl), hproper, nofun⟩
  · rcases List.mem_pair.1 ha with rfl | rfl
    · exact ⟨isNormal_ref_iff.2 (Or.inr rfl), rfl, nofun⟩
    · exact ⟨rfl, rfl, nofun⟩

/-- Next to each other stand only types of which one lies below the other. -/
theorem isChain_longestClimb (h : Hierarchy) (c : ClassId) :
    (longestClimb h c).IsChain fun a b => a.Below h b ∧ a ≠ b := by
  refine List.IsChain.append ?_ (List.isChain_pair.2 ⟨below_top _, nofun⟩) fun a ha b hb => ?_
  · rw [List.isChain_map]
    refine ((Shape.isLineage h).isChain (.array (.cls c) 1)).imp fun s t hst => ?_
    have hbelow : s.Below h t := Shape.below_iff_mem_lineage.2 hst.1
    exact ⟨⟨hbelow, Nullness.le_refl _⟩, fun he => hst.2 (Ty.ref.inj he).1.symm⟩
  · obtain ⟨s, -, rfl⟩ := List.mem_map.1 (List.mem_of_getLast? ha)
    obtain rfl : ref (.cls h.root) .maybe = b := Option.some.inj hb
    have hbelow : s.Below h (.cls h.root) :=
      Shape.below_iff_mem_lineage.2 (Shape.root_mem_lineage h s)
    exact ⟨⟨hbelow, Nullness.le_maybe _⟩, fun he => nomatch (Ty.ref.inj he).2⟩

/-- **The way up through the arrays of a class.** -/
theorem climbs_longestClimb (h : Hierarchy) (c : ClassId) :
    Climbs h (bottom :: longestClimb h c) where
  proper := List.forall_mem_cons.2 ⟨isProper_bottom, fun t ht => (mem_longestClimb ht).2.1⟩
  isChain := by
    refine List.IsChain.cons ?_ fun b hb => ?_
    · refine (isChain_longestClimb h c).imp_of_mem_imp fun a b ha hb hab => ?_
      obtain ⟨ha, hap, -⟩ := mem_longestClimb ha
      obtain ⟨hb, hbp, -⟩ := mem_longestClimb hb
      exact tryLt_of_below ha hb hap hbp hab.2 hab.1
    · obtain ⟨hb, hbp, hne⟩ := mem_longestClimb (List.mem_of_head? hb)
      exact tryLt_of_below rfl hb isProper_bottom hbp hne.symm (bottom_below b)

/-- **Types climb four steps more than the deepest class is deep, and no further**, `bottom` and
`top` included; and there is a deepest class.  Undeclared classes count as well, and types need not
be in normal form. -/
theorem climbs_end (h : Hierarchy) :
    (∃ D, IsGreatest (Set.range h.depth) D) ∧
      ∀ D, IsGreatest (Set.range h.depth) D →
        (∀ first rest, Climbs h (first :: rest) → rest.length ≤ D + 4) ∧
          ∃ first rest, Climbs h (first :: rest) ∧ rest.length = D + 4 := by
  refine ⟨h.exists_isGreatest_depth, fun D hD => ⟨fun first rest hclimb => ?_, ?_⟩⟩
  · have hheight := Hierarchy.height_le fun c => hD.2 ⟨c, rfl⟩
    have hlength := rank_add_length_le hclimb
    omega
  · obtain ⟨⟨c, rfl⟩, -⟩ := hD
    exact ⟨bottom, longestClimb h c, climbs_longestClimb h c, length_longestClimb h c⟩

/-- Above the root alone five steps are the most, and arrays of an undeclared class take them. -/
theorem climbs_end_ofRoot :
    IsGreatest (Set.range (Hierarchy.ofRoot ⟨0⟩).depth) 1 ∧
      Climbs (.ofRoot ⟨0⟩) (bottom :: longestClimb (.ofRoot ⟨0⟩) ⟨1⟩) ∧
      (longestClimb (.ofRoot ⟨0⟩) ⟨1⟩).length ≤ 1 + 4 := by
  have hD := Hierarchy.isGreatest_depth_ofRoot ⟨0⟩
  have hclimb := climbs_longestClimb (.ofRoot ⟨0⟩) ⟨1⟩
  exact ⟨hD, hclimb, ((climbs_end _).2 1 hD).1 _ _ hclimb⟩

end Ty
end IrAnalysis
