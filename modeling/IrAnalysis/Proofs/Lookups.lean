/-
# What a look-up finds, and how look-ups compose

A look-up goes through all layers above the lens that it starts from, the oldest first
(`Lens.lookups_go_through_all`).  So it may be cut at any lens in between: going from `a`
to `b` and from `b` to `c` is going from `a` to `c` (`Lens.lookups_compose`).  For calls
this rests on the order in which a layer works: it names the method anew, and then
dispatches the call as it does calls of the method so named (`Layer.moved`).
-/

import IrAnalysis.Proofs.LensStack

namespace IrAnalysis

namespace Layer

/-- **A call after a layer.**  Its method goes where the layer's own map sends it, or stays; and
if the layer dispatches calls of the method so named in another way, those that were dispatched
as this one are dispatched in the new way. -/
def moved (l : Layer) (call : Call) : Call :=
  let method := (l.methods.get? call.method).getD call.method
  let changes (r : Redispatch) : Bool := call.dispatch = r.before ∧ method ∈ r.methods
  ⟨method, ((l.redispatch.filter changes).map (·.after)).getD call.dispatch⟩

theorem renameCall_eq_moved (l : Layer) (call : Call) : l.renameCall call = l.moved call := by
  unfold renameCall moved
  cases hr : l.redispatch with
  | none => rfl
  | some r =>
    simp only [Redispatch.apply, renameMethod, Option.filter_some]
    by_cases h :
        call.dispatch = r.before ∧ (l.methods.get? call.method).getD call.method ∈ r.methods
    · simp only [h, and_self, if_true, decide_true, Option.map_some, Option.getD_some]
    · simp only [h, if_false, decide_false, Bool.false_eq_true, Option.map_none, Option.getD_none]

end Layer

namespace Lens

variable {run : Run} {lenses : List Lens} {lens a b c : Lens} {since : Option Lens}
  {layers : List Layer}

/-- **Every look-up goes through all of the layers**, the oldest first. -/
structure GoesThrough (lens : Lens) (since : Option Lens) (layers : List Layer) : Prop where
  types : lens.types since =
    .ok fun c => layers.foldl (fun c l => (l.types.get? c).getD c) c
  fields : lens.fields since =
    .ok fun f => layers.foldl (fun f l => (l.fields.get? f).getD f) f
  methods : lens.methods since =
    .ok fun m => layers.foldl (fun m l => (l.methods.get? m).getD m) m
  calls : lens.calls since = .ok fun call => layers.foldl (fun call l => l.moved call) call

/-- Layers that are left out would have changed nothing. -/
theorem Run.Apart.goesThrough (h : Run.Apart run lenses) (hlens : lens ∈ lenses)
    (hsince : ∀ base ∈ since, base ∈ lenses)
    (hs : Stacked (since.getD .identity) layers lens) : GoesThrough lens since layers where
  types := h.through_eq hlens hsince hs fun _ hl => Layer.renameType_of_untouched hl
  fields := h.through_eq hlens hsince hs fun _ hl => Layer.renameField_of_untouched hl
  methods := h.through_eq hlens hsince hs fun _ hl => Layer.renameMethod_of_untouched hl
  calls := by
    refine (h.through_eq hlens hsince hs fun _ hl => Layer.renameCall_of_untouched hl).trans ?_
    simp only [Layer.renameCall_eq_moved]

/-- The method of a call goes where the method goes by itself. -/
theorem foldl_moved_method (layers : List Layer) (call : Call) :
    (layers.foldl (fun call l => l.moved call) call).method =
      layers.foldl (fun m l => (l.methods.get? m).getD m) call.method := by
  induction layers generalizing call with
  | nil => rfl
  | cons l layers ih => exact ih (l.moved call)

/-- **The look-ups of a lens go through all layers above the lens that they start from**, whatever
layers they leave out, and the method of a call is found as the method is by itself. -/
theorem lookups_go_through_all (hmade : Run.Made run lenses) (hlens : lens ∈ lenses)
    (hsince : ∀ base ∈ since, base ∈ lenses ∧ lens.restsOn base = true) :
    ∃ layers, Stacked (since.getD .identity) layers lens ∧ GoesThrough lens since layers ∧
      ∃ f g, lens.calls since = .ok f ∧ lens.methods since = .ok g ∧
        ∀ call, (f call).method = g call.method := by
  have hapart := hmade.apart
  obtain ⟨layers, hs⟩ : ∃ layers, Stacked (since.getD .identity) layers lens := by
    cases since with
    | none => exact Stacked.exists_identity lens
    | some base => exact hapart.stacked_of_restsOn hlens (hsince base rfl).1 (hsince base rfl).2
  have hthrough := hapart.goesThrough hlens (fun base hbase => (hsince base hbase).1) hs
  exact ⟨layers, hs, hthrough, _, _, hthrough.calls, hthrough.methods, foldl_moved_method layers⟩

/-- A phase that sends a method to another one, and makes super calls of that one direct. -/
def movingUp : Layer :=
  ⟨.empty, Table.empty.insert ⟨1⟩ ⟨2⟩, .empty, some ⟨[⟨2⟩], .super, .direct⟩, false⟩

def onePhase : Lens := .nested 0 movingUp .identity

/-- After it a phase that makes the other method public. -/
def twoPhases : Lens := .nested 1 (Layer.publicizing [⟨2⟩]).allowingEmpty onePhase

theorem made_twoPhases : Run.Made ⟨2⟩ [twoPhases, onePhase, .identity] :=
  .publicize [⟨2⟩] (.build movingUp .start (List.mem_singleton_self _)) List.mem_cons_self

/-- A super call of the first method goes through both phases and ends as a virtual call of the
second. -/
theorem lookups_go_through_all_twoPhases :
    Run.Made ⟨2⟩ [twoPhases, onePhase, .identity] ∧ twoPhases.restsOn onePhase = true ∧
      (∃ layers, Stacked onePhase layers twoPhases ∧
        GoesThrough twoPhases (some onePhase) layers) ∧
      twoPhases.calls none >>= (fun f => .ok (f ⟨⟨1⟩, .super⟩)) = .ok ⟨⟨2⟩, .virtual⟩ := by
  have hsince : ∀ base ∈ some onePhase,
      base ∈ [twoPhases, onePhase, .identity] ∧ twoPhases.restsOn base = true := by
    rintro _ ⟨⟩
    exact ⟨List.mem_cons_of_mem _ List.mem_cons_self, rfl⟩
  obtain ⟨layers, hs, hthrough, -⟩ :=
    lookups_go_through_all made_twoPhases List.mem_cons_self hsince
  exact ⟨made_twoPhases, rfl, ⟨layers, hs, hthrough⟩, rfl⟩

/-! ### Cutting a look-up in two -/

/-- **Looking up from `a` to `b` and from there to `c` is looking up from `a` to `c`.**  From a lens
to itself every item stays, and with no lens to start from a look-up starts from the identity. -/
structure Composes {α : Type} (look : Lens → Option Lens → Checked (α → α)) (a b c : Lens) :
    Prop where
  steps : ∃ f g, look b (some a) = .ok f ∧ look c (some b) = .ok g ∧ look c (some a) = .ok (g ∘ f)
  self : look c (some c) = .ok id
  whole : ∃ f, look c none = .ok f ∧ look c (some .identity) = .ok f

theorem Run.Apart.composes {α : Type} {keep : Layer → Bool} {step : Layer → α → α}
    (h : Run.Apart run lenses) (ha : a ∈ lenses) (hb : b ∈ lenses) (hc : c ∈ lenses)
    (hba : b.restsOn a = true) (hcb : c.restsOn b = true)
    (hskip : ∀ l, keep l = false → ∀ x, step l x = x) :
    Composes (fun lens since => lens.through since keep step) a b c := by
  have hlook : ∀ {base lens layers}, base ∈ lenses → lens ∈ lenses → Stacked base layers lens →
      lens.through (some base) keep step =
        .ok fun x => layers.foldl (fun x l => step l x) x := by
    intro base lens layers hbase hlens hs
    have hsince : ∀ base' ∈ some base, base' ∈ lenses := by
      rintro _ ⟨⟩
      exact hbase
    exact h.through_eq hlens hsince hs hskip
  have hnone : ∀ base ∈ (none : Option Lens), base ∈ lenses := nofun
  obtain ⟨older, hab⟩ := h.stacked_of_restsOn hb ha hba
  obtain ⟨newer, hbc⟩ := h.stacked_of_restsOn hc hb hcb
  obtain ⟨all, hall⟩ := Stacked.exists_identity c
  refine ⟨⟨_, _, hlook ha hb hab, hlook hb hc hbc, ?_⟩, hlook hc hc .refl, _,
    h.through_eq hc hnone hall hskip, hlook h.identity_mem hc hall⟩
  rw [hlook ha hc (hab.trans hbc)]
  exact congrArg Except.ok (funext fun x => List.foldl_append)

/-- **Look-ups compose** along the lenses of a run, for every sort of items. -/
theorem lookups_compose (hmade : Run.Made run lenses) (ha : a ∈ lenses) (hb : b ∈ lenses)
    (hc : c ∈ lenses) (hcb : c.restsOn b = true) (hba : b.restsOn a = true) :
    Composes Lens.types a b c ∧ Composes Lens.fields a b c ∧ Composes Lens.methods a b c ∧
      Composes Lens.calls a b c := by
  have h := hmade.apart
  refine ⟨?_, ?_, ?_, ?_⟩
  · exact h.composes ha hb hc hba hcb fun _ hl => Layer.renameType_of_untouched hl
  · exact h.composes ha hb hc hba hcb fun _ hl => Layer.renameField_of_untouched hl
  · exact h.composes ha hb hc hba hcb fun _ hl => Layer.renameMethod_of_untouched hl
  · exact h.composes ha hb hc hba hcb fun _ hl => Layer.renameCall_of_untouched hl

/-- A super call is first a direct call and then a virtual one, and cutting between the phases
changes nothing. -/
theorem lookups_compose_twoPhases :
    Run.Made ⟨2⟩ [twoPhases, onePhase, .identity] ∧ twoPhases.restsOn onePhase = true ∧
      onePhase.restsOn .identity = true ∧
      onePhase.calls (some .identity) >>= (fun f => .ok (f ⟨⟨1⟩, .super⟩)) = .ok ⟨⟨2⟩, .direct⟩ ∧
      Composes Lens.calls .identity onePhase twoPhases := by
  refine ⟨made_twoPhases, rfl, rfl, rfl, ?_⟩
  obtain ⟨-, -, -, hcalls⟩ := lookups_compose made_twoPhases
    (a := .identity) (b := onePhase) (c := twoPhases) (by simp) (by simp) (by simp) rfl rfl
  exact hcalls

end Lens
end IrAnalysis
