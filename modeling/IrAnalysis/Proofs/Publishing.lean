/-
# Publishing lenses, phase after phase

The current lens is only ever replaced by one that rests on it.  So in every run it rests
on all lenses that were current before, and a lens that was made beside it, or that was
given up long ago, is refused (`Program.publishing_rests`).  A lens that is refused changes
nothing.

The assumptions are moved by look-ups that start from the lens that is left behind.  Those
find it, because the new lens rests on it; what can still stop the move is a bound that
cannot be written in new names.  A member that is free of side effects stays so under its
new name, whatever falls together with it (`Assumptions.isPureField_of_rewrite`).
-/

import IrAnalysis.Program
import IrAnalysis.Proofs.Lookups
import IrAnalysis.Proofs.Moving

namespace IrAnalysis

namespace Lens

variable {run : Run} {lenses : List Lens} {lens : Lens}

/-- From a lens to itself every item stays. -/
theorem Run.Apart.goesThrough_self (h : Run.Apart run lenses) (hlens : lens ∈ lenses) :
    GoesThrough lens (some lens) [] := by
  refine h.goesThrough hlens ?_ .refl
  rintro _ ⟨⟩
  exact hlens

end Lens

namespace Assumptions

variable {a r : Assumptions} {lens since : Lens} {g : FieldId → FieldId} {m : MethodId → MethodId}

/-- Where nothing is assumed there is nothing to move. -/
theorem rewrite_of_isEmpty (ha : a.isEmpty = true) (lens since : Lens) :
    a.rewrite lens since = .ok a := by
  obtain ⟨⟨fields, _⟩, ⟨methods, _⟩, _, _⟩ := a
  obtain ⟨hfields, hmethods⟩ := Bool.and_eq_true_iff.1 ha
  obtain rfl := List.isEmpty_iff.1 hfields
  obtain rfl := List.isEmpty_iff.1 hmethods
  rfl

/-- Between lenses that rest on each other whatever can be written can be moved. -/
theorem exists_rewrite_of_restsOn (hrests : lens.restsOn since = true) :
    (∃ r, a.rewrite lens since = .ok r) ↔ a.Writable := by
  obtain ⟨f, hf⟩ := Lens.types_of_restsOn hrests
  obtain ⟨g, hg⟩ := Lens.fields_of_restsOn hrests
  obtain ⟨m, hm⟩ := Lens.methods_of_restsOn hrests
  exact exists_rewrite_iff hf hg hm

/-- One info that is free of side effects is enough for all that fall together with it. -/
theorem any_pure_under {κ α : Type} [DecidableEq κ] {key : κ → κ} {renamed : α → Info}
    {entries : List (κ × α)} {k : κ} {i : α} (he : (k, i) ∈ entries)
    (hpure : (renamed i).pure = true) :
    (under key renamed entries (key k)).any (·.pure) = true := by
  refine List.any_eq_true.2 ⟨renamed i, List.mem_map.2 ⟨(k, i), ?_, rfl⟩, hpure⟩
  exact List.mem_filter.2 ⟨he, decide_eq_true rfl⟩

/-- **A field that is read without side effects is so under its new name.** -/
theorem isPureField_of_rewrite (hrests : lens.restsOn since = true)
    (hg : lens.fields (some since) = .ok g) (hr : a.rewrite lens since = .ok r) {k : FieldId}
    (hpure : a.isPureField k = true) : r.isPureField (g k) = true := by
  obtain ⟨f, hf⟩ := Lens.types_of_restsOn hrests
  obtain ⟨m, hm⟩ := Lens.methods_of_restsOn hrests
  have hmerged := mergedFrom_of_rewrite hf hg hm (.refl _) (.refl _) hr
  rw [isPureField, (hmerged.fields (g k)).merged.pure]
  rw [isPureField, field] at hpure
  cases hi : a.fields.get? k with
  | none => rw [hi] at hpure; cases hpure
  | some i =>
    rw [hi] at hpure
    exact any_pure_under ((Table.mem_entries ..).2 hi) ((Info.of_pure ..).trans hpure)

/-- **A method that is called without side effects is so under its new name.** -/
theorem isPureMethod_of_rewrite (hrests : lens.restsOn since = true)
    (hm : lens.methods (some since) = .ok m) (hr : a.rewrite lens since = .ok r) {k : MethodId}
    (hpure : a.isPureMethod k = true) : r.isPureMethod (m k) = true := by
  obtain ⟨f, hf⟩ := Lens.types_of_restsOn hrests
  obtain ⟨g, hg⟩ := Lens.fields_of_restsOn hrests
  have hmerged := mergedFrom_of_rewrite hf hg hm (.refl _) (.refl _) hr
  rw [isPureMethod, (hmerged.methods (m k)).merged.pure]
  rw [isPureMethod, method] at hpure
  cases hi : a.methods.get? k with
  | none => rw [hi] at hpure; cases hpure
  | some i =>
    rw [hi] at hpure
    exact any_pure_under ((Table.mem_entries ..).2 hi) ((Info.of_pure ..).trans hpure)

end Assumptions

namespace Program

variable {run : Lens.Run} {lenses earlier : List Lens} {lens base : Lens} {p : Program}

/-! ### One step -/

theorem Step.on_get_bind {α : Type} (step : Program → Step α) (p : Program) :
    (get >>= step).on p = (step p).on p := rfl

/-- The current lens may be published once more. -/
theorem publish_of_isSame (hsame : p.lens.isSame lens = true) :
    (publish lens).on p = (.ok (), p) := by
  rw [publish, Step.on_get_bind, if_pos hsame]
  rfl

theorem publish_of_not_restsOn (hsame : p.lens.isSame lens = false)
    (hrests : lens.restsOn p.lens = false) :
    (publish lens).on p = (.error (.notExtending lens.depth p.lens.depth), p) := by
  simp only [publish, Step.on_get_bind, hsame, hrests]
  rfl

/-- **A lens that rests on the current one takes its place** if the assumptions can be moved. -/
theorem publish_of_restsOn (hsame : p.lens.isSame lens = false)
    (hrests : lens.restsOn p.lens = true) :
    (publish lens).on p = match p.assumptions.rewrite lens p.lens with
      | .ok assumptions => (.ok (), { p with lens, assumptions })
      | .error v => (.error (.violated v), p) := by
  simp only [publish, Step.on_get_bind, hsame, hrests]
  cases hempty : p.assumptions.isEmpty with
  | true =>
    rw [Assumptions.rewrite_of_isEmpty hempty]
    rfl
  | false => cases p.assumptions.rewrite lens p.lens <;> rfl

/-- **What publishing a lens can do**, and what it returns. -/
inductive PublishOutcome (lens : Lens) (p : Program) : Except PublishError Unit × Program → Prop
  | current : p.lens = lens → PublishOutcome lens p (.ok (), p)
  | refused : lens.restsOn p.lens = false →
      PublishOutcome lens p (.error (.notExtending lens.depth p.lens.depth), p)
  | moved {assumptions : Assumptions} : lens.restsOn p.lens = true →
      p.assumptions.rewrite lens p.lens = .ok assumptions →
      PublishOutcome lens p (.ok (), { p with lens, assumptions })
  | unwritable : p.lens ≠ lens → lens.restsOn p.lens = true → ¬p.assumptions.Writable →
      PublishOutcome lens p (.error (.violated .degenerateArray), p)

theorem publish_outcome (h : Lens.Run.Apart run lenses) (hcurrent : p.lens ∈ lenses)
    (hlens : lens ∈ lenses) : PublishOutcome lens p ((publish lens).on p) := by
  cases hsame : p.lens.isSame lens with
  | true =>
    rw [publish_of_isSame hsame]
    exact .current (h.eq_of_isSame hcurrent hlens hsame)
  | false =>
    cases hrests : lens.restsOn p.lens with
    | false =>
      rw [publish_of_not_restsOn hsame hrests]
      exact .refused hrests
    | true =>
      rw [publish_of_restsOn hsame hrests]
      cases hr : p.assumptions.rewrite lens p.lens with
      | ok assumptions => exact .moved hrests hr
      | error v =>
        obtain rfl := Assumptions.eq_degenerateArray_of_rewrite hrests hr
        refine .unwritable ?_ hrests fun hw => ?_
        · rintro rfl
          exact absurd (Lens.isSame_refl p.lens) (Bool.eq_false_iff.1 hsame)
        · obtain ⟨r, hr'⟩ := (Assumptions.exists_rewrite_of_restsOn hrests).2 hw
          rw [hr] at hr'
          cases hr'

/-- The current lens stays, or gives way to one that rests on it. -/
theorem PublishOutcome.lens_eq {result : Except PublishError Unit × Program}
    (h : PublishOutcome lens p result) :
    result.2.lens = p.lens ∨ result.2.lens = lens ∧ lens.restsOn p.lens = true := by
  cases h with
  | current | refused | unwritable => exact .inl rfl
  | moved hrests => exact .inr ⟨rfl, hrests⟩

/-- Members that are free of side effects are so under the names that `lens` has for them. -/
structure KeepsPure (lens : Lens) (p q : Program) : Prop where
  fields : ∃ g, lens.fields (some p.lens) = .ok g ∧
    ∀ f, p.assumptions.isPureField f = true → q.assumptions.isPureField (g f) = true
  methods : ∃ m, lens.methods (some p.lens) = .ok m ∧
    ∀ k, p.assumptions.isPureMethod k = true → q.assumptions.isPureMethod (m k) = true

/-- **What `lens` meets with in `p`.**  It is refused exactly if it does not rest on the current
lens, and then nothing changes.  Otherwise it is the current lens from then on, and what was free
of side effects stays so, unless the assumptions cannot be written in its names; no look-up misses
the lens that is left. -/
structure Published (lens : Lens) (p : Program) (result : Except PublishError Unit × Program) :
    Prop where
  refused_iff : (∃ m n, result.1 = .error (.notExtending m n)) ↔ lens.restsOn p.lens = false
  unchanged : ∀ m n, result.1 = .error (.notExtending m n) →
    m = lens.depth ∧ n = p.lens.depth ∧ result.2 = p
  ok_iff : result.1 = .ok () ↔
    lens.restsOn p.lens = true ∧ (p.lens = lens ∨ p.assumptions.Writable)
  finds : result.1 ≠ .error (.violated .notAncestor)
  current : result.1 = .ok () → result.2.lens = lens
  pure : result.1 = .ok () → KeepsPure lens p result.2

theorem PublishOutcome.published {result : Except PublishError Unit × Program}
    (h : Lens.Run.Apart run lenses) (hlens : lens ∈ lenses)
    (ho : PublishOutcome lens p result) : Published lens p result := by
  cases ho with
  | current heq =>
    subst heq
    have hself := h.goesThrough_self hlens
    have hrests := Lens.restsOn_refl p.lens
    refine ⟨?_, nofun, iff_of_true rfl ⟨hrests, .inl rfl⟩, nofun, fun _ => rfl, fun _ =>
      ⟨⟨_, hself.fields, fun _ h => h⟩, _, hself.methods, fun _ h => h⟩⟩
    rw [hrests]
    exact iff_of_false nofun nofun
  | refused hrests =>
    refine ⟨iff_of_true ⟨_, _, rfl⟩ hrests, ?_, iff_of_false nofun ?_, nofun, nofun, nofun⟩
    · rintro m n ⟨⟩
      exact ⟨rfl, rfl, rfl⟩
    · rw [hrests]
      exact fun h => Bool.false_ne_true h.1
  | moved hrests hr =>
    obtain ⟨g, hg⟩ := Lens.fields_of_restsOn hrests
    obtain ⟨m, hm⟩ := Lens.methods_of_restsOn hrests
    refine ⟨?_, nofun, iff_of_true rfl ⟨hrests, .inr ?_⟩, nofun, fun _ => rfl, fun _ =>
      ⟨⟨g, hg, fun _ => Assumptions.isPureField_of_rewrite hrests hg hr⟩, m, hm, fun _ =>
        Assumptions.isPureMethod_of_rewrite hrests hm hr⟩⟩
    · rw [hrests]
      exact iff_of_false nofun nofun
    · exact (Assumptions.exists_rewrite_of_restsOn hrests).1 ⟨_, hr⟩
  | unwritable hne hrests hw =>
    refine ⟨?_, nofun, iff_of_false nofun ?_, nofun, nofun, nofun⟩
    · rw [hrests]
      exact iff_of_false nofun nofun
    · exact fun h => h.2.elim hne hw

/-! ### Runs -/

/-- **A run**: it has gone through states in which the lenses `earlier` were current, the newest
first, and has come to `p`.  A broken promise ends it. -/
inductive History (lenses : List Lens) : List Lens → Program → Prop
  | start {hierarchy : Hierarchy} {settings : Settings} {p : Program} :
      Program.start hierarchy settings = .ok p → History lenses [] p
  | publish {earlier : List Lens} {p : Program} {lens : Lens} :
      History lenses earlier p → lens ∈ lenses →
      (∀ v, ((publish lens).on p).1 ≠ .error (.violated v)) →
      History lenses (p.lens :: earlier) ((publish lens).on p).2
  | assume {earlier : List Lens} {p : Program} (assumptions : Assumptions) :
      History lenses earlier p → History lenses (p.lens :: earlier) (p.assume assumptions)
  | prune {earlier : List Lens} {p : Program} (removed : Pruned) :
      History lenses earlier p → History lenses (p.lens :: earlier) (p.prune removed)

/-- The current lens rests on all earlier ones. -/
structure RestsOnAll (lenses earlier : List Lens) (lens : Lens) : Prop where
  mem : lens ∈ lenses
  earlier_mem : ∀ base ∈ earlier, base ∈ lenses
  rests : ∀ base ∈ earlier, lens.restsOn base = true

/-- One more lens that rests on the current one. -/
theorem RestsOnAll.next {next : Lens} (h : RestsOnAll lenses earlier lens)
    (hapart : Lens.Run.Apart run lenses) (hnext : next ∈ lenses)
    (hrests : next.restsOn lens = true) : RestsOnAll lenses (lens :: earlier) next where
  mem := hnext
  earlier_mem := List.forall_mem_cons.2 ⟨h.mem, h.earlier_mem⟩
  rests := List.forall_mem_cons.2 ⟨hrests, fun base hbase =>
    hapart.restsOn_trans (h.earlier_mem base hbase) h.mem hnext hrests (h.rests base hbase)⟩

theorem start_lens {hierarchy : Hierarchy} {settings : Settings}
    (h : start hierarchy settings = .ok p) : p.lens = .identity := by
  rw [start] at h
  cases hv : settings.validate with
  | error e => rw [hv] at h; cases h
  | ok u =>
    rw [hv] at h
    cases h
    rfl

theorem prune_lens (p : Program) (removed : Pruned) : (p.prune removed).lens = p.lens := by
  unfold prune
  split <;> rfl

theorem History.restsOnAll (hapart : Lens.Run.Apart run lenses) (h : History lenses earlier p) :
    RestsOnAll lenses earlier p.lens := by
  induction h with
  | start hstart =>
    rw [start_lens hstart]
    exact ⟨hapart.identity_mem, nofun, nofun⟩
  | publish _ hlens _ ih =>
    rcases (publish_outcome hapart ih.mem hlens).lens_eq with hstay | ⟨hnext, hrests⟩
    · rw [hstay]
      exact ih.next hapart ih.mem (Lens.restsOn_refl _)
    · rw [hnext]
      exact ih.next hapart hlens hrests
  | assume assumptions _ ih => exact ih.next hapart ih.mem (Lens.restsOn_refl _)
  | prune removed _ ih =>
    rw [prune_lens]
    exact ih.next hapart ih.mem (Lens.restsOn_refl _)

/-- **In every run the current lens rests on all that were current before**, and this is what
decides which lenses can be published next. -/
theorem publishing_rests (hmade : Lens.Run.Made run lenses) (h : History lenses earlier p) :
    (∀ base ∈ earlier, p.lens.restsOn base = true) ∧
      ∀ lens ∈ lenses, Published lens p ((publish lens).on p) := by
  have hall := h.restsOnAll hmade.apart
  exact ⟨hall.rests, fun lens hlens =>
    (publish_outcome hmade.apart hall.mem hlens).published hmade.apart hlens⟩

/-- A program before its first phase, that may assume of one method that calling it has no side
effects. -/
def beforePhases : Program where
  hierarchy := .ofRoot ⟨0⟩
  settings := .standard
  lens := .identity
  assumptions := .ofTables .empty (Table.empty.insert ⟨1⟩ ⟨.of .unknown .unknown true .empty⟩)
  reporter := .start false

def afterOnePhase : Program := ((publish Lens.onePhase).on beforePhases).2

/-- A lens that is made beside the first phase. -/
def asidePhase : Lens := .nested 2 (Layer.publicizing [⟨1⟩]).allowingEmpty .identity

theorem history_afterOnePhase :
    History [asidePhase, .twoPhases, .onePhase, .identity] [.identity, .identity]
      afterOnePhase := by
  have hstart : Program.start (.ofRoot ⟨0⟩) .standard =
      .ok { beforePhases with assumptions := .empty } := rfl
  have hassume : History [asidePhase, .twoPhases, .onePhase, .identity] [.identity]
      beforePhases := .assume beforePhases.assumptions (.start hstart)
  have hok : ((publish .onePhase).on beforePhases).1 = .ok () := rfl
  refine .publish hassume (by simp) fun v hv => ?_
  rw [hok] at hv
  cases hv

/-- After the first phase the other one made in its place is refused, and the second phase is
not; the method that it is called by then is still free of side effects. -/
theorem publishing_rests_afterOnePhase :
    Lens.Run.Made ⟨3⟩ [asidePhase, .twoPhases, .onePhase, .identity] ∧
      History [asidePhase, .twoPhases, .onePhase, .identity] [.identity, .identity]
        afterOnePhase ∧
      ((publish asidePhase).on afterOnePhase).2 = afterOnePhase ∧
      ((publish .twoPhases).on afterOnePhase).1 = .ok () ∧
      ((publish .twoPhases).on afterOnePhase).2.assumptions.isPureMethod ⟨2⟩ = true := by
  have hmade : Lens.Run.Made ⟨3⟩ [asidePhase, .twoPhases, .onePhase, .identity] :=
    .publicize [⟨1⟩] Lens.made_twoPhases (by simp)
  obtain ⟨-, hall⟩ := publishing_rests hmade history_afterOnePhase
  have haside := hall asidePhase List.mem_cons_self
  have hnext := hall .twoPhases (by simp)
  obtain ⟨m, n, hrefused⟩ := haside.refused_iff.2 rfl
  have hok := hnext.ok_iff.2 ⟨rfl, .inr ⟨by decide, by decide⟩⟩
  obtain ⟨renamed, hrenamed, hpure⟩ := (hnext.pure hok).methods
  obtain rfl := Except.ok.inj hrenamed
  exact ⟨hmade, history_afterOnePhase, (haside.unchanged m n hrefused).2.2, hok,
    hpure ⟨2⟩ (by decide)⟩

end Program
end IrAnalysis
