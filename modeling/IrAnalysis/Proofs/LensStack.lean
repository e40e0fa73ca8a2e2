/-
# Stacks of lenses

A run makes its lenses one after the other, each laid on one that it has made before,
and gives each a number of its own.  So among the lenses of one run the numbers tell
which of them are the same (`Run.Apart.eq_of_isSame`), and a lens that rests on another
one is that one with layers laid on it (`Run.Apart.stacked_of_restsOn`).

A look-up leaves out the layers that do not touch the sort of item looked up.  Those
would change nothing, so what it finds is what all layers above `since` make of the item
(`Run.Apart.through_eq`).
-/

import IrAnalysis.Lens.Lookup

namespace IrAnalysis

theorem Table.get?_of_isEmpty {κ α : Type} [DecidableEq κ] {t : Table κ α}
    (ht : t.isEmpty = true) (k : κ) : t.get? k = none := by
  rw [get?, List.isEmpty_iff.1 ht]
  rfl

theorem Redispatch.apply_of_isEmpty {r : Redispatch} (hr : r.methods.isEmpty = true)
    (call : Call) : r.apply call = call := by
  rw [apply, List.isEmpty_iff.1 hr]
  exact if_neg fun h => absurd h.2 List.not_mem_nil

namespace Layer

variable {l : Layer}

/-! ### Layers that do not touch a sort of items -/

theorem renameType_of_untouched (hl : l.facets.types = false) (c : ClassId) :
    l.renameType c = c := by
  rw [renameType, Table.get?_of_isEmpty (Bool.not_inj hl)]
  rfl

theorem renameMethod_of_untouched (hl : l.facets.methods = false) (m : MethodId) :
    l.renameMethod m = m := by
  rw [renameMethod, Table.get?_of_isEmpty (Bool.not_inj hl)]
  rfl

theorem renameField_of_untouched (hl : l.facets.fields = false) (f : FieldId) :
    l.renameField f = f := by
  rw [renameField, Table.get?_of_isEmpty (Bool.not_inj hl)]
  rfl

/-- A layer that renames no method and redispatches none leaves calls as they are. -/
theorem renameCall_of_untouched (hl : (l.facets.methods || l.facets.dispatch) = false)
    (call : Call) : l.renameCall call = call := by
  rw [Bool.or_eq_false_iff] at hl
  unfold renameCall
  rw [renameMethod_of_untouched hl.1]
  cases hr : l.redispatch with
  | none => rfl
  | some r =>
    have hdispatch : l.redispatch.any (fun r => !r.methods.isEmpty) = false := hl.2
    rw [hr, Option.any_some] at hdispatch
    exact Redispatch.apply_of_isEmpty (Bool.not_inj hdispatch) call

end Layer

namespace Lens

/-- **`lens` is `base` with `layers` laid on it**, the oldest first. -/
inductive Stacked (base : Lens) : List Layer → Lens → Prop
  | refl : Stacked base [] base
  | lay {layers : List Layer} {below : Lens} (serial : Nat) (layer : Layer) :
      Stacked base layers below → Stacked base (layers ++ [layer]) (.nested serial layer below)

namespace Stacked

variable {a b base lens : Lens} {layers newer : List Layer}

theorem depth_eq (h : Stacked base layers lens) : lens.depth = base.depth + layers.length := by
  induction h with
  | refl => rfl
  | lay serial layer _ ih =>
    rw [depth, ih, List.length_append, List.length_singleton, Nat.add_assoc]

theorem trans (hab : Stacked a layers b) (hb : Stacked b newer lens) :
    Stacked a (layers ++ newer) lens := by
  induction hb with
  | refl => rwa [List.append_nil]
  | lay serial layer _ ih =>
    rw [← List.append_assoc]
    exact .lay serial layer ih

/-- Every lens is a stack over the identity. -/
theorem exists_identity (lens : Lens) : ∃ layers, Stacked .identity layers lens := by
  induction lens with
  | identity => exact ⟨[], .refl⟩
  | nested serial layer below ih =>
    obtain ⟨layers, h⟩ := ih
    exact ⟨layers ++ [layer], .lay serial layer h⟩

end Stacked

theorem isSame_refl (lens : Lens) : lens.isSame lens = true := by
  cases lens with
  | identity => rfl
  | nested serial layer below => exact beq_self_eq_true serial

theorem restsOn_refl (lens : Lens) : lens.restsOn lens = true := by
  cases lens with
  | identity => rfl
  | nested serial layer below => rw [restsOn, isSame_refl, Bool.true_or]

theorem Stacked.restsOn {base lens : Lens} {layers : List Layer} (h : Stacked base layers lens) :
    lens.restsOn base = true := by
  induction h with
  | refl => exact restsOn_refl base
  | lay serial layer _ ih => rw [Lens.restsOn, ih, Bool.or_true]

/-- Every look-up can start from any lens below. -/
theorem layersSince_of_restsOn {lens since : Lens} (keep : Layer → Bool)
    (hrests : lens.restsOn since = true) (newer : List Layer) :
    ∃ layers, lens.layersSince (some since) keep newer = .ok layers := by
  induction lens generalizing newer with
  | identity => exact ⟨newer, if_pos hrests⟩
  | nested serial layer below ih =>
    rw [restsOn, Bool.or_eq_true] at hrests
    rw [layersSince, Option.any_some]
    by_cases hsame : (nested serial layer below).isSame since = true
    · exact ⟨newer, if_pos hsame⟩
    · obtain ⟨layers, hlayers⟩ := ih (hrests.resolve_left hsame)
        (if keep layer then layer :: newer else newer)
      exact ⟨layers, (if_neg hsame).trans hlayers⟩

/-- **Items can be looked up since any lens below.** -/
theorem through_of_restsOn {α : Type} {lens since : Lens} (hrests : lens.restsOn since = true)
    (keep : Layer → Bool) (step : Layer → α → α) :
    ∃ f, lens.through (some since) keep step = .ok f := by
  obtain ⟨layers, hlayers⟩ := layersSince_of_restsOn keep hrests []
  refine ⟨fun a => layers.foldl (fun a layer => step layer a) a, ?_⟩
  rw [through, hlayers]
  rfl

theorem types_of_restsOn {lens since : Lens} (hrests : lens.restsOn since = true) :
    ∃ f, lens.types (some since) = .ok f :=
  through_of_restsOn hrests _ _

theorem fields_of_restsOn {lens since : Lens} (hrests : lens.restsOn since = true) :
    ∃ f, lens.fields (some since) = .ok f :=
  through_of_restsOn hrests _ _

theorem methods_of_restsOn {lens since : Lens} (hrests : lens.restsOn since = true) :
    ∃ f, lens.methods (some since) = .ok f :=
  through_of_restsOn hrests _ _

namespace Run

/-- **A run, and the lenses that it has made**, the newest first, down to the identity. -/
inductive Made : Run → List Lens → Prop
  | start : Made .start [.identity]
  | build {run : Run} {lenses : List Lens} {below : Lens} (layer : Layer) :
      Made run lenses → below ∈ lenses →
        Made (run.build layer below).1 ((run.build layer below).2 :: lenses)
  | publicize {run : Run} {lenses : List Lens} {below : Lens} (methods : List MethodId) :
      Made run lenses → below ∈ lenses →
        Made (run.publicize methods below).1 ((run.publicize methods below).2 :: lenses)

/-- Lenses that are told apart by their numbers, none of which is still to be given.  What lies
below one of them is one of them. -/
structure Apart (run : Run) (lenses : List Lens) : Prop where
  identity_mem : .identity ∈ lenses
  below_mem : ∀ {serial layer below}, .nested serial layer below ∈ lenses → below ∈ lenses
  serial_lt : ∀ {serial layer below}, .nested serial layer below ∈ lenses → serial < run.made
  eq_of_isSame : ∀ {a b : Lens}, a ∈ lenses → b ∈ lenses → a.isSame b = true → a = b

variable {run : Run} {lenses : List Lens} {lens base : Lens} {layers : List Layer}

namespace Apart

/-- The next lens has a number that none of the others has. -/
theorem lay (h : Apart run lenses) (hbase : base ∈ lenses) (layer : Layer) :
    Apart ⟨run.made + 1⟩ (.nested run.made layer base :: lenses) := by
  have hnew : ∀ {lens : Lens}, lens ∈ lenses → (nested run.made layer base).isSame lens = false ∧
      lens.isSame (nested run.made layer base) = false := by
    intro lens hlens
    cases lens with
    | identity => exact ⟨rfl, rfl⟩
    | nested serial layer' below =>
      have hlt := h.serial_lt hlens
      exact ⟨beq_eq_false_iff_ne.2 (by omega), beq_eq_false_iff_ne.2 (by omega)⟩
  refine ⟨List.mem_cons_of_mem _ h.identity_mem, fun {serial layer' below} hmem => ?_,
    fun {serial layer' below} hmem => ?_, fun {a b} ha hb hsame => ?_⟩
  · rcases List.mem_cons.1 hmem with heq | hmem
    · obtain ⟨-, -, rfl⟩ := Lens.nested.inj heq
      exact List.mem_cons_of_mem _ hbase
    · exact List.mem_cons_of_mem _ (h.below_mem hmem)
  · show serial < run.made + 1
    rcases List.mem_cons.1 hmem with heq | hmem
    · obtain ⟨rfl, -, -⟩ := Lens.nested.inj heq
      omega
    · have hlt := h.serial_lt hmem
      omega
  · rcases List.mem_cons.1 ha with rfl | ha <;> rcases List.mem_cons.1 hb with rfl | hb
    · rfl
    · exact absurd hsame (by rw [(hnew hb).1]; exact Bool.false_ne_true)
    · exact absurd hsame (by rw [(hnew ha).2]; exact Bool.false_ne_true)
    · exact h.eq_of_isSame ha hb hsame

/-- A lens that was made already may be listed once more. -/
theorem again (h : Apart run lenses) (hlens : lens ∈ lenses) : Apart run (lens :: lenses) := by
  have hiff : ∀ {x : Lens}, x ∈ lens :: lenses ↔ x ∈ lenses := by
    intro x
    rw [List.mem_cons, or_iff_right_of_imp fun heq => heq ▸ hlens]
  exact ⟨hiff.2 h.identity_mem, fun hmem => hiff.2 (h.below_mem (hiff.1 hmem)),
    fun hmem => h.serial_lt (hiff.1 hmem),
    fun ha hb => h.eq_of_isSame (hiff.1 ha) (hiff.1 hb)⟩

theorem build (h : Apart run lenses) (hbase : base ∈ lenses) (layer : Layer) :
    Apart (run.build layer base).1 ((run.build layer base).2 :: lenses) := by
  unfold Run.build
  split
  · exact h.again hbase
  · exact h.lay hbase layer

end Apart

/-- **The lenses of a run are told apart by their numbers.** -/
theorem Made.apart (h : Made run lenses) : Apart run lenses := by
  induction h with
  | start =>
    have hall : ∀ {x : Lens}, x ∈ [Lens.identity] → x = .identity := List.mem_singleton.1
    exact ⟨List.mem_singleton_self _, fun hmem => absurd (hall hmem) (by simp),
      fun hmem => absurd (hall hmem) (by simp), fun ha hb _ => (hall ha).trans (hall hb).symm⟩
  | build layer _ hbelow ih => exact ih.build hbelow layer
  | publicize methods _ hbelow ih =>
    unfold Run.publicize
    split
    · exact ih.again hbelow
    · exact ih.build hbelow _

namespace Apart

/-- **A lens that rests on another one is that one with layers laid on it.** -/
theorem stacked_of_restsOn (h : Apart run lenses) (hlens : lens ∈ lenses) (hbase : base ∈ lenses)
    (hrests : lens.restsOn base = true) : ∃ layers, Stacked base layers lens := by
  induction lens with
  | identity =>
    obtain rfl : base = .identity := by
      cases base with
      | identity => rfl
      | nested serial layer below => exact absurd hrests Bool.false_ne_true
    exact ⟨[], .refl⟩
  | nested serial layer below ih =>
    rw [restsOn, Bool.or_eq_true] at hrests
    rcases hrests with hsame | hrests
    · obtain rfl := h.eq_of_isSame hlens hbase hsame
      exact ⟨[], .refl⟩
    · obtain ⟨layers, hlayers⟩ := ih (h.below_mem hlens) hrests
      exact ⟨layers ++ [layer], .lay serial layer hlayers⟩

theorem restsOn_trans (h : Apart run lenses) {a b c : Lens} (ha : a ∈ lenses) (hb : b ∈ lenses)
    (hc : c ∈ lenses) (hcb : c.restsOn b = true) (hba : b.restsOn a = true) :
    c.restsOn a = true := by
  obtain ⟨older, hab⟩ := h.stacked_of_restsOn hb ha hba
  obtain ⟨newer, hbc⟩ := h.stacked_of_restsOn hc hb hcb
  exact (hab.trans hbc).restsOn

/-- A lens is not the same as one that lies properly below it. -/
theorem isSame_lay (h : Apart run lenses) {serial : Nat} {layer : Layer} {below : Lens}
    (hlens : .nested serial layer below ∈ lenses) (hbase : base ∈ lenses)
    (hs : Stacked base layers below) : (nested serial layer below).isSame base = false := by
  rw [Bool.eq_false_iff]
  intro hsame
  have hdepth := hs.depth_eq
  rw [← h.eq_of_isSame hlens hbase hsame, depth] at hdepth
  omega

/-- The layers that are gone through are those above `base` that are kept. -/
theorem layersSince_eq (h : Apart run lenses) (hlens : lens ∈ lenses) (hbase : base ∈ lenses)
    (hs : Stacked base layers lens) (keep : Layer → Bool) (newer : List Layer) :
    lens.layersSince (some base) keep newer = .ok (layers.filter keep ++ newer) := by
  induction hs generalizing newer with
  | refl =>
    cases base with
    | identity => rfl
    | nested serial layer below =>
      rw [layersSince, Option.any_some, isSame_refl, if_pos rfl]
      rfl
  | lay serial layer hs ih =>
    rw [layersSince, Option.any_some, h.isSame_lay hlens hbase hs, if_neg Bool.false_ne_true,
      ih (h.below_mem hlens), List.filter_append, List.append_assoc]
    cases hkeep : keep layer with
    | true => simp [hkeep]
    | false => simp [hkeep]

end Apart

end Run

/-- Without a lens below, all layers are above. -/
theorem layersSince_none {lens : Lens} {layers : List Layer} (hs : Stacked .identity layers lens)
    (keep : Layer → Bool) (newer : List Layer) :
    lens.layersSince none keep newer = .ok (layers.filter keep ++ newer) := by
  induction hs generalizing newer with
  | refl => rfl
  | lay serial layer _ ih =>
    rw [layersSince, Option.any_none, if_neg Bool.false_ne_true, ih, List.filter_append,
      List.append_assoc]
    cases hkeep : keep layer with
    | true => simp [hkeep]
    | false => simp [hkeep]

/-- Leaving out layers that change nothing changes nothing. -/
theorem foldl_filter_keep {α : Type} {keep : Layer → Bool} {step : Layer → α → α}
    (hskip : ∀ l, keep l = false → ∀ a, step l a = a) (layers : List Layer) (a : α) :
    (layers.filter keep).foldl (fun a l => step l a) a = layers.foldl (fun a l => step l a) a := by
  rw [List.foldl_filter]
  refine congrArg (fun f => layers.foldl f a) (funext fun a => funext fun l => ?_)
  split
  · rfl
  · next hkeep => exact (hskip l (Bool.eq_false_iff.2 hkeep) a).symm

/-- **A look-up finds what all layers above `since` make of the item**, though it leaves out
those that do not touch it. -/
theorem Run.Apart.through_eq {α : Type} {run : Run} {lenses : List Lens} {lens : Lens}
    {since : Option Lens} {layers : List Layer} {keep : Layer → Bool} {step : Layer → α → α}
    (h : Run.Apart run lenses) (hlens : lens ∈ lenses) (hsince : ∀ base ∈ since, base ∈ lenses)
    (hs : Stacked (since.getD .identity) layers lens)
    (hskip : ∀ l, keep l = false → ∀ a, step l a = a) :
    lens.through since keep step = .ok fun a => layers.foldl (fun a l => step l a) a := by
  have hlayers : lens.layersSince since keep [] = .ok (layers.filter keep) := by
    rw [← List.append_nil (layers.filter keep)]
    cases since with
    | none => exact layersSince_none hs keep []
    | some base => exact h.layersSince_eq hlens (hsince base rfl) hs keep []
  rw [through, hlayers]
  exact congrArg Except.ok (funext fun a => foldl_filter_keep hskip layers a)

end Lens
end IrAnalysis
