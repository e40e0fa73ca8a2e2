/-
# Lenses and what they rest on

A lens that rests on another one is found by walking down the stack.  A look-up walks down the
same stack, on its own, and stops elsewhere: it is a violation exactly if the other walk finds
nothing (`Lens.through_eq_error_iff`), whatever is looked up.

A run may lay many lenses on one, so its lenses form a tree that grows from the identity.
Resting on is the order of this tree: what a lens rests on is a chain
(`Lens.Run.Apart.restsOn_total`), and it is shorter than the lens
(`Lens.Run.Apart.depth_lt`).
-/

import IrAnalysis.Proofs.Lookups

namespace IrAnalysis
namespace Lens

variable {run : Run} {lenses : List Lens} {lens a b c since : Lens}

/-! ### Look-ups that are refused -/

/-- No look-up can start from a lens that is not below. -/
theorem layersSince_of_not_restsOn (keep : Layer → Bool) (hrests : lens.restsOn since = false)
    (newer : List Layer) : lens.layersSince (some since) keep newer = .error .notAncestor := by
  induction lens generalizing newer with
  | identity =>
    rw [layersSince, Option.all_some, if_neg]
    rw [restsOn] at hrests
    exact Bool.eq_false_iff.1 hrests
  | nested serial layer below ih =>
    rw [restsOn, Bool.or_eq_false_iff] at hrests
    rw [layersSince, Option.any_some, if_neg (Bool.eq_false_iff.1 hrests.1)]
    exact ih hrests.2 _

/-- **A look-up of anything is a violation exactly if the lens does not rest on the one that the
look-up starts from**, and then it is this violation. -/
theorem through_eq_error_iff {α : Type} (lens since : Lens) (keep : Layer → Bool)
    (step : Layer → α → α) (x : α) (v : Violation) :
    (lens.through (some since) keep step).map (· x) = .error v ↔
      lens.restsOn since = false ∧ v = .notAncestor := by
  cases hrests : lens.restsOn since with
  | true =>
    obtain ⟨f, hf⟩ := through_of_restsOn hrests keep step
    rw [hf]
    exact iff_of_false nofun fun h => nomatch h.1
  | false =>
    rw [through, layersSince_of_not_restsOn keep hrests]
    constructor
    · rintro ⟨⟩
      exact ⟨rfl, rfl⟩
    · rintro ⟨-, rfl⟩
      rfl

/-! ### The order -/

theorem isSame_iff (h : Run.Apart run lenses) (ha : a ∈ lenses) (hb : b ∈ lenses) :
    a.isSame b = true ↔ a = b :=
  ⟨h.eq_of_isSame ha hb, fun heq => heq ▸ isSame_refl a⟩

/-- The identity lies below every lens. -/
theorem restsOn_identity (lens : Lens) : lens.restsOn .identity = true := by
  obtain ⟨layers, hs⟩ := Stacked.exists_identity lens
  exact hs.restsOn

namespace Run.Apart

/-- **A lens is higher than those that it rests on.** -/
theorem depth_lt (h : Run.Apart run lenses) (ha : a ∈ lenses) (hb : b ∈ lenses)
    (hrests : a.restsOn b = true) (hne : a ≠ b) : b.depth < a.depth := by
  obtain ⟨layers, hs⟩ := h.stacked_of_restsOn ha hb hrests
  cases hs with
  | refl => exact absurd rfl hne
  | lay serial layer hs =>
    rw [depth, hs.depth_eq]
    omega

theorem restsOn_antisymm (h : Run.Apart run lenses) (ha : a ∈ lenses) (hb : b ∈ lenses)
    (hab : a.restsOn b = true) (hba : b.restsOn a = true) : a = b := by
  refine Classical.byContradiction fun hne => ?_
  have hlt := h.depth_lt ha hb hab hne
  have hgt := h.depth_lt hb ha hba (Ne.symm hne)
  omega

/-- **What a lens rests on is a chain.** -/
theorem restsOn_total (h : Run.Apart run lenses) (hlens : lens ∈ lenses) (ha : a ∈ lenses)
    (hb : b ∈ lenses) (hrests : lens.restsOn a = true) (hrests' : lens.restsOn b = true) :
    a.restsOn b = true ∨ b.restsOn a = true := by
  induction lens with
  | identity =>
    cases a with
    | identity => exact Or.inr (restsOn_identity b)
    | nested serial layer below => exact absurd hrests Bool.false_ne_true
  | nested serial layer below ih =>
    -- The walk that starts at the lens finds one of the two first.
    by_cases hsame : (nested serial layer below).isSame a = true
    · exact Or.inl (h.eq_of_isSame hlens ha hsame ▸ hrests')
    · by_cases hsame' : (nested serial layer below).isSame b = true
      · exact Or.inr (h.eq_of_isSame hlens hb hsame' ▸ hrests)
      · rw [restsOn, Bool.or_eq_true] at hrests hrests'
        exact ih (h.below_mem hlens) (hrests.resolve_left hsame) (hrests'.resolve_left hsame')

end Run.Apart

/-- **Resting on orders the lenses as a tree that grows from the identity.**  Lenses are told apart
as the program does it, by the step that made them. -/
structure TreeOrder (lenses : List Lens) : Prop where
  isSame_iff : ∀ {a b}, a ∈ lenses → b ∈ lenses → (a.isSame b = true ↔ a = b)
  refl : ∀ a : Lens, a.restsOn a = true
  antisymm : ∀ {a b}, a ∈ lenses → b ∈ lenses → a.restsOn b = true → b.restsOn a = true → a = b
  trans : ∀ {a b c}, a ∈ lenses → b ∈ lenses → c ∈ lenses →
    a.restsOn b = true → b.restsOn c = true → a.restsOn c = true
  identity_least : ∀ a : Lens, a.restsOn .identity = true
  /-- What a lens rests on is a chain. -/
  total : ∀ {lens a b}, lens ∈ lenses → a ∈ lenses → b ∈ lenses →
    lens.restsOn a = true → lens.restsOn b = true → a.restsOn b = true ∨ b.restsOn a = true
  depth_lt : ∀ {a b}, a ∈ lenses → b ∈ lenses → a.restsOn b = true → a ≠ b → b.depth < a.depth

theorem Run.Apart.treeOrder (h : Run.Apart run lenses) : TreeOrder lenses where
  isSame_iff := Lens.isSame_iff h
  refl := restsOn_refl
  antisymm := h.restsOn_antisymm
  trans ha hb hc hab hbc := h.restsOn_trans hc hb ha hab hbc
  identity_least := restsOn_identity
  total := h.restsOn_total
  depth_lt := h.depth_lt

/-- **A look-up of anything through `a` since `b` is refused exactly if `a` does not rest on `b`**,
and it fails in no other way. -/
structure RefusedUnlessBelow (a b : Lens) : Prop where
  types : ∀ c v, (a.types (some b)).map (· c) = .error v ↔
    a.restsOn b = false ∧ v = .notAncestor
  fields : ∀ f v, (a.fields (some b)).map (· f) = .error v ↔
    a.restsOn b = false ∧ v = .notAncestor
  methods : ∀ m v, (a.methods (some b)).map (· m) = .error v ↔
    a.restsOn b = false ∧ v = .notAncestor
  calls : ∀ call v, (a.calls (some b)).map (· call) = .error v ↔
    a.restsOn b = false ∧ v = .notAncestor

/-- **Among the lenses of a run, look-ups are refused exactly where one does not rest on the other,
and resting on is the order of a tree** that grows from the identity. -/
theorem refused_unless_below (hmade : Run.Made run lenses) :
    (∀ a ∈ lenses, ∀ b ∈ lenses, RefusedUnlessBelow a b) ∧ TreeOrder lenses := by
  refine ⟨fun a _ b _ => ⟨?_, ?_, ?_, ?_⟩, hmade.apart.treeOrder⟩
  · exact through_eq_error_iff a b _ _
  · exact through_eq_error_iff a b _ _
  · exact through_eq_error_iff a b _ _
  · exact through_eq_error_iff a b _ _

/-- A phase beside the one of `twoPhases`, on the same lens below. -/
def otherPhase : Lens := .nested 2 (Layer.publicizing [⟨1⟩]).allowingEmpty onePhase

/-- The run goes on with a phase that has nothing to make public, and then turns back. -/
theorem made_otherPhase :
    Run.Made ⟨3⟩ [otherPhase, twoPhases, twoPhases, onePhase, .identity] :=
  .publicize [⟨1⟩] (.publicize [] made_twoPhases List.mem_cons_self)
    (List.mem_cons_of_mem _ (List.mem_cons_of_mem _ List.mem_cons_self))

/-- Neither of the two phases can be looked through since the other one, though both rest on one
lens and are of one height. -/
theorem refused_unless_below_otherPhase :
    Run.Made ⟨3⟩ [otherPhase, twoPhases, twoPhases, onePhase, .identity] ∧
      (otherPhase.types (some twoPhases)).map (· ⟨0⟩) = .error .notAncestor ∧
      (twoPhases.calls (some otherPhase)).map (· ⟨⟨1⟩, .super⟩) = .error .notAncestor ∧
      onePhase.depth < otherPhase.depth := by
  obtain ⟨hlook, horder⟩ := refused_unless_below made_otherPhase
  have hother : otherPhase ∈ [otherPhase, twoPhases, twoPhases, onePhase, .identity] := by simp
  have htwo : twoPhases ∈ [otherPhase, twoPhases, twoPhases, onePhase, .identity] := by simp
  have hone : onePhase ∈ [otherPhase, twoPhases, twoPhases, onePhase, .identity] := by simp
  refine ⟨made_otherPhase, ?_, ?_, ?_⟩
  · exact ((hlook _ hother _ htwo).types _ _).2 ⟨rfl, rfl⟩
  · exact ((hlook _ htwo _ hother).calls _ _).2 ⟨rfl, rfl⟩
  · exact horder.depth_lt hother hone rfl nofun

end Lens
end IrAnalysis
