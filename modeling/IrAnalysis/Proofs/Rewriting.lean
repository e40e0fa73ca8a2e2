/-
# Moving a graph to new names keeps its phis joined

A graph moves from the names of one lens to those of another that rests on it: its
values are renamed, its phis are left, and those that this may concern are seeds of an
update (`Graph.renameTypes_eq`).  Two sorts of phis are seeds: those whose own type
is another one in the new names, and those that read a value that was renamed.  So a phi
that does not hang on the seeds has its type in the new names already
(`Graph.rename_eq_of_not_stale`), none of its operands was renamed or reset
(`Graph.InStep.mem_stale_of_reads`), and it is still their join; what hangs on the
seeds is joined anew (`PhiTypes.rewrite_spec`).  This needs no promise about what the
renaming does: it may merge classes or reverse their order.
-/

import IrAnalysis.Proofs.LensStack
import IrAnalysis.Proofs.Updating
import IrAnalysis.Workers

namespace IrAnalysis

namespace Value

variable {f : ClassId → ClassId} {x : Value}

/-- A value in new names.  A phi keeps its type, and so does what is not live. -/
def renamed (f : ClassId → ClassId) (x : Value) : Value :=
  if x.live && !x.isPhi then { x with type := x.type.rename f } else x

/-- The phis whose types may be others once the value `v` is renamed. -/
def stale (f : ClassId → ClassId) (v : ValueId) (x : Value) : List ValueId :=
  if x.live && x.type.rename f ≠ x.type then if x.isPhi then [v] else x.phiUsers else []

theorem renameValue_eq (v : ValueId) (hx : x.type.IsProper) :
    Graph.renameValue (.ok f) v x = .ok (x.renamed f, x.stale f v) := by
  obtain ⟨t, d, users, phiUsers, live⟩ := x
  unfold Graph.renameValue renamed stale
  rw [Ty.tryRename_ok f hx]
  cases live with
  | false => rfl
  | true =>
    by_cases hsame : t.rename f = t
    · simp [bind, Except.bind, pure, Except.pure, hsame]
    · cases d with
      | phi p => simp [bind, Except.bind, pure, Except.pure, hsame, isPhi, phi?]
      | instruction i => simp [bind, Except.bind, pure, Except.pure, hsame, isPhi, phi?]

theorem untyped_renamed : (x.renamed f).untyped = x.untyped := by
  unfold renamed
  split_ifs <;> rfl

theorem type_renamed_of_livePhi? {p : Phi} (hp : x.livePhi? = some p) :
    (x.renamed f).type = x.type := by
  obtain ⟨-, hdef⟩ := livePhi?_eq_some.1 hp
  simp [renamed, isPhi, phi?, hdef]

end Value

namespace Graph

variable {h : Hierarchy} {g g' : Graph} {f : ClassId → ClassId} {u v w : ValueId} {p : Phi}

/-- The graph with its values in new names. -/
def renamed (g : Graph) (f : ClassId → ClassId) : Graph :=
  { g with values := g.values.map (Value.renamed f) }

/-- The phis whose types may be others in the new names. -/
def stale (g : Graph) (f : ClassId → ClassId) : List ValueId :=
  (g.values.zipIdx.map fun q => q.1.stale f ⟨q.2⟩).flatten

theorem renameTypes_eq (ht : PhiTypes.ProperTypes g) :
    g.renameTypes (.ok f) = .ok (g.renamed f, g.stale f) := by
  have hall : g.values.zipIdx.mapM (fun q => renameValue (.ok f) ⟨q.2⟩ q.1) =
      .ok (g.values.zipIdx.map fun q => (q.1.renamed f, q.1.stale f ⟨q.2⟩)) := by
    refine mapM_eq_ok fun q hq => Value.renameValue_eq ⟨q.2⟩ ?_
    have hslot : g.slot? ⟨q.2⟩ = some q.1 := List.mem_zipIdx_iff_getElem?.1 hq
    have htype := ht.proper ⟨q.2⟩
    rwa [typeAt_eq, valueAt_of_slot? hslot] at htype
  have hvalues : (g.values.zipIdx.map fun q => (q.1.renamed f, q.1.stale f ⟨q.2⟩)).map (·.1) =
      g.values.map (Value.renamed f) := by
    rw [List.map_map]
    refine (List.map_map (f := Prod.fst) (g := Value.renamed f)).symm.trans ?_
    rw [List.zipIdx_map_fst]
  rw [renameTypes, hall]
  simp only [bind, Except.bind, pure, Except.pure, hvalues, List.map_map, renamed, stale]
  rfl

theorem sameButTypes_renamed (g : Graph) (f : ClassId → ClassId) :
    SameButTypes g (g.renamed f) := by
  refine ⟨rfl, rfl, rfl, ?_⟩
  rw [renamed, List.map_map]
  exact List.map_congr_left fun x _ => Value.untyped_renamed

theorem typeAt_renamed (v : ValueId) : (g.renamed f).typeAt v = ((g.valueAt v).renamed f).type := by
  rw [typeAt, slot?, valueAt, slot?, renamed, List.getElem?_map]
  cases g.values[v.index]? <;> rfl

theorem mem_stale (hu : u ∈ (g.valueAt v).stale f v) : u ∈ g.stale f := by
  rcases hv : g.slot? v with _ | x
  · rw [valueAt, hv] at hu
    exact absurd hu List.not_mem_nil
  · rw [valueAt_of_slot? hv] at hu
    refine List.mem_flatten.2 ⟨x.stale f v, List.mem_map.2 ⟨(x, v.index), ?_, rfl⟩, hu⟩
    exact List.mem_zipIdx_iff_getElem?.2 hv

/-- A live phi that is not stale has its type in the new names already. -/
theorem rename_eq_of_not_stale (hp : (g.valueAt v).livePhi? = some p) (hv : v ∉ g.stale f) :
    (g.typeAt v).rename f = g.typeAt v := by
  obtain ⟨hlive, hdef⟩ := Value.livePhi?_eq_some.1 hp
  by_contra hne
  rw [typeAt_eq] at hne
  refine hv (mem_stale (v := v) ?_)
  simp [Value.stale, hlive, hne, Value.isPhi, Value.phi?, hdef]

/-- A phi that reads a value that was renamed is stale. -/
theorem InStep.mem_stale_of_reads (hg : InStep g) (hp : (g.valueAt u).livePhi? = some p)
    (hw : w ∈ p.operands) (hne : (g.renamed f).typeAt w ≠ g.typeAt w) : u ∈ g.stale f := by
  rw [typeAt_renamed, typeAt_eq] at hne
  refine mem_stale (v := w) ?_
  have hu : u ∈ (g.valueAt w).phiUsers := by
    rw [← readingPhis_eq]
    exact hg.mem_readingPhis.2 ⟨p, hp, hw⟩
  unfold Value.renamed at hne
  split_ifs at hne with hcond
  · rw [Bool.and_eq_true, Bool.not_eq_true'] at hcond
    simp only [Value.stale, hcond.1, hcond.2, ne_eq, hne, not_false_eq_true, decide_true,
      Bool.and_self, if_true, Bool.false_eq_true, if_false]
    exact hu
  · exact absurd rfl hne

theorem SameButTypes.properBounds (hs : SameButTypes g g') (hb : g.ProperBounds) :
    g'.ProperBounds := by
  intro i x hx
  rw [hs.instruction?] at hx
  exact hb i x hx

end Graph

namespace PhiTypes

open IrAnalysis.Graph

variable {h : Hierarchy} {lens since : Lens} {g : Graph} {seeds : List ValueId}

/-- **Every live phi has the join of the types of its operands.** -/
def PhisJoined (h : Hierarchy) (g : Graph) : Prop :=
  ∀ v x p, g.value? v = some x → x.phi? = some p → x.type = Ty.joinAll h (p.operands.map g.typeAt)

theorem phisJoined_iff : PhisJoined h g ↔ ∀ v p, (g.valueAt v).livePhi? = some p →
    g.typeAt v = Ty.joinAll h (p.operands.map g.typeAt) := by
  constructor
  · intro hj v p hp
    rw [livePhi?_eq] at hp
    obtain ⟨x, hx, hxp⟩ := Option.bind_eq_some_iff.1 hp
    have hslot := (Option.filter_eq_some_iff.1 hx).1
    rw [typeAt_eq, valueAt_of_slot? hslot]
    exact hj v x p hx hxp
  · intro hj v x p hx hxp
    have hslot := (Option.filter_eq_some_iff.1 hx).1
    rw [← valueAt_of_slot? hslot, ← typeAt_eq]
    refine hj v p ?_
    rw [livePhi?_eq, hx]
    exact hxp

theorem ProperTypes.renamed (ht : ProperTypes g) (f : ClassId → ClassId) :
    ProperTypes (g.renamed f) := by
  have htype : ∀ v, (g.renamed f).typeAt v = g.typeAt v ∨
      (g.renamed f).typeAt v = (g.typeAt v).rename f := by
    intro v
    rw [typeAt_renamed, typeAt_eq, Value.renamed]
    split_ifs
    · exact Or.inr rfl
    · exact Or.inl rfl
  constructor
  · intro v
    rcases htype v with he | he
    · exact he ▸ ht.normal v
    · exact he ▸ Ty.rename_isNormal f (ht.normal v)
  · intro v
    rcases htype v with he | he
    · exact he ▸ ht.proper v
    · exact he ▸ Ty.rename_isProper f (ht.proper v)

/-- A live phi at what flows into it, once the update of the renamed graph is done. -/
theorem UpdateSpec.phisJoined {f : ClassId → ClassId} {g' : Graph} (hg : InStep g)
    (hj : PhisJoined h g) (hs : UpdateSpec h (g.renamed f) (g.stale f) g') : PhisJoined h g' := by
  have hsame := sameButTypes_renamed g f
  refine phisJoined_iff.2 fun v p hp => ?_
  rw [hs.same.livePhi?] at hp
  have hgp := (hsame.livePhi? v).symm.trans hp
  by_cases hv : (g.renamed f).Hangs (g.stale f) v
  · rw [hs.settled v hv (oneOperand_of_livePhi? hp), flow_phi hp]
  · -- Neither the phi nor an operand of it has another type than before.
    have hself : g'.typeAt v = g.typeAt v := by
      rw [hs.held v hv, typeAt_renamed, Value.type_renamed_of_livePhi? hgp, typeAt_eq]
    have hops : ∀ w ∈ p.operands, g'.typeAt w = g.typeAt w := by
      intro w hw
      rw [hs.held w fun hh => hv (.phi hh hp hw)]
      by_contra hne
      exact hv (.seed (hg.mem_stale_of_reads hgp hw hne) hp)
    rw [hself, phisJoined_iff.1 hj v p hgp, List.map_congr_left hops]

/-- What a graph becomes whose classes are renamed. -/
structure Rewritten (h : Hierarchy) (f : ClassId → ClassId) (g g' : Graph) : Prop where
  same : SameButTypes g g'
  types : ProperTypes g'
  joined : PhisJoined h g'
  /-- What is not recomputed is renamed. -/
  held : ∀ v, v ∉ resetSet (g.renamed f) (g.stale f) → g'.typeAt v = (g.renamed f).typeAt v
  drained : EmptiesQueue h (g.renamed f) (g.stale f) g'

/-- A rewrite renames, and updates what the renaming left stale.  The update fails in none of its
checks: a phi that is not reset has its type in the new names already. -/
theorem rewrite_update {f : ClassId → ClassId} (hg : InStep g) (ht : ProperTypes g)
    (hb : g.ProperBounds) (hf : lens.types (some since) = .ok f) :
    ∃ r, rewrite h lens since g = .ok r ∧ UpdateSpec h (g.renamed f) (g.stale f) r.1 := by
  have hsame := sameButTypes_renamed g f
  have hkeep : ∀ v p, ((g.renamed f).valueAt v).livePhi? = some p →
      ¬ (g.renamed f).Hangs (g.stale f) v →
        ((g.renamed f).typeAt v).rename f = (g.renamed f).typeAt v := by
    intro v p hp hv
    have hgp := (hsame.livePhi? v).symm.trans hp
    rw [typeAt_renamed, Value.type_renamed_of_livePhi? hgp, ← typeAt_eq]
    exact rename_eq_of_not_stale hgp fun hstale => hv (.seed hstale hp)
  obtain ⟨u, hu, hs⟩ :=
    update_spec (h := h) (hg.retype hsame) (hsame.properBounds hb) (ht.renamed f) _ hkeep
  refine ⟨(u.graph, u.affected), ?_, hs⟩
  simp only [rewrite, hf, renameTypes_eq ht, hu, bind, Except.bind, pure, Except.pure]

/-- **Moving a graph to the names of a lens fails in none of its checks**, and leaves the phis
joined as they were. -/
theorem rewrite_spec {f : ClassId → ClassId} (hg : InStep g) (ht : ProperTypes g)
    (hb : g.ProperBounds) (hj : PhisJoined h g) (hf : lens.types (some since) = .ok f) :
    ∃ r, rewrite h lens since g = .ok r ∧ Rewritten h f g r.1 := by
  have hsame := sameButTypes_renamed g f
  obtain ⟨r, hr, hs⟩ := rewrite_update (h := h) hg ht hb hf
  exact ⟨r, hr, hsame.trans hs.same, hs.types, hs.phisJoined hg hj,
    fun v hv => hs.held v fun hh => hv ((mem_resetSet (hg.retype hsame)).2 hh), hs.drained⟩

/-- Before its class is renamed the loop is joined: what is not null is a case of what may be. -/
theorem phisJoined_loop : PhisJoined (.ofRoot ⟨0⟩) loop := by
  intro v x p hx hp
  have hmem : x ∈ loop.values := List.mem_of_getElem? (Option.filter_eq_some_iff.1 hx).1
  have hphi : ∀ x ∈ loop.values, x.phi? = none ∨ x.phi? = some ⟨⟨1⟩, [⟨0⟩, ⟨2⟩]⟩ ∧
      x.type = .ref (.cls ⟨1⟩) .maybe := by decide
  rcases hphi x hmem with hno | ⟨hsome, htype⟩
  · rw [hno] at hp
    exact absurd hp (by simp)
  · obtain rfl := Option.some.inj (hsome.symm.trans hp)
    rw [htype]
    refine Ty.le_antisymm (h := .ofRoot ⟨0⟩) rfl (Ty.joinAll_isNormal _ _)
      (Ty.le_joinAll List.mem_cons_self) (Ty.joinAll_le_iff.2 ?_)
    have hnonNull : (Ty.ref (.cls ⟨1⟩) .nonNull).le (.ofRoot ⟨0⟩) (.ref (.cls ⟨1⟩) .maybe) :=
      Ty.le_iff_below.2 ⟨Shape.Below.refl _, by decide⟩
    have htypes : [(⟨0⟩ : ValueId), ⟨2⟩].map loop.typeAt =
        [.ref (.cls ⟨1⟩) .maybe, .ref (.cls ⟨1⟩) .nonNull] := by decide
    rw [htypes, List.forall_mem_cons, List.forall_mem_singleton]
    exact ⟨Ty.le_refl _ _, hnonNull⟩

end PhiTypes

namespace Workers

open IrAnalysis.Graph PhiTypes

variable {h : Hierarchy} {lens since : Lens} {gs : List Graph}

/-- **Workers move all graphs to the names of a lens that rests on the one they were moved to
before**, and every phi is the join of its operands again, whatever becomes of the classes.  In
particular no phi that the renaming changes is left out. -/
theorem rewriteTypes_joined (w : Workers) (hgs : ∀ g ∈ gs, g.Reachable)
    (ht : ∀ g ∈ gs, ProperTypes g) (hb : ∀ g ∈ gs, g.ProperBounds) (hj : ∀ g ∈ gs, PhisJoined h g)
    (hrests : lens.restsOn since = true) :
    ∃ f rs, lens.types (some since) = .ok f ∧ w.rewriteTypes h lens since gs = .ok rs ∧
      List.Forall₂ (fun g r => Rewritten h f g r.1) gs rs := by
  obtain ⟨f, hf⟩ := Lens.types_of_restsOn hrests
  obtain ⟨rs, hrs, hall⟩ := exists_mapM_eq_ok (f := rewrite h lens since)
    (R := fun g r => Rewritten h f g r.1) fun g hg =>
      rewrite_spec (hgs g hg).inStep (ht g hg) (hb g hg) (hj g hg) hf
  exact ⟨f, rs, hf, hrs, hall⟩

/-- A loop whose class is sent to another one. -/
theorem rewriteTypes_joined_loop :
    let lens : Lens := .nested 0 { Layer.empty with types := Table.empty.insert ⟨1⟩ ⟨2⟩ } .identity
    PhisJoined (.ofRoot ⟨0⟩) loop ∧ lens.restsOn .identity = true ∧
      ∃ f rs, lens.types (some .identity) = .ok f ∧
        Workers.rewriteTypes ⟨none⟩ (.ofRoot ⟨0⟩) lens .identity [loop] = .ok rs ∧
          List.Forall₂ (fun g r => Rewritten (.ofRoot ⟨0⟩) f g r.1) [loop] rs := by
  have hrests : Lens.restsOn (.nested 0 { Layer.empty with types := Table.empty.insert ⟨1⟩ ⟨2⟩ }
      .identity) .identity = true := rfl
  refine ⟨phisJoined_loop, hrests, rewriteTypes_joined ⟨none⟩ ?_ ?_ ?_ ?_ hrests⟩
  · exact List.forall_mem_singleton.2 loop_reachable
  · exact List.forall_mem_singleton.2 properTypes_loop
  · exact List.forall_mem_singleton.2 properBounds_loop
  · exact List.forall_mem_singleton.2 phisJoined_loop

end Workers
end IrAnalysis
