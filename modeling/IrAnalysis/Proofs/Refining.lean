/-
# What a declaration leaves true

A declaration takes a class from below the root and hangs it, with all that lies below it, below
another one.  What lay above any class still does, the root being above all, so the map that
leaves each class where it is takes the old tree into the new one
(`Hierarchy.RefinedBy.attempt`), and what was covered in the old tree is covered in the new one
(`Hierarchy.RefinedBy.le`).

The bounds of types move, but one way only.  Where two types had nothing but the root in common
because a class was still to be declared, their join gets lower (`Hierarchy.RefinedBy.join_le`);
and where neither of them covered the other, their meet gets higher
(`Hierarchy.RefinedBy.meet_le`).
-/

import IrAnalysis.Proofs.Declaring
import IrAnalysis.Proofs.Renaming

namespace IrAnalysis

namespace Hierarchy

variable {h h' h'' : Hierarchy} {c super : ClassId}

/-- What lies above a class in `h` lies above it in `h'`. -/
def RefinedBy (h h' : Hierarchy) : Prop := MapsInto id h h'

theorem RefinedBy.refl (h : Hierarchy) : h.RefinedBy h := ⟨rfl, id⟩

theorem RefinedBy.trans (hr : h.RefinedBy h') (hr' : h'.RefinedBy h'') : h.RefinedBy h'' :=
  ⟨hr.map_root.trans hr'.map_root, fun hcd => hr'.below (hr.below hcd)⟩

/-- It is enough to look at the parents. -/
theorem refinedBy_of_parent (hroot : h'.root = h.root)
    (hparent : ∀ c p, h.parent c = some p → h'.Below c p) : h.RefinedBy h' :=
  ⟨hroot.symm, fun {c d} => Relation.reflTransGen_closed hparent c d⟩

theorem attempt_eq_ok_iff : h.attempt (c, super) = (h', .ok ()) ↔ h.declare c super = .ok h' := by
  rw [attempt]
  cases h.declare c super <;> simp

/-- **A declaration refines the tree**, also when it is refused. -/
theorem RefinedBy.attempt (h : Hierarchy) (x : ClassId × ClassId) :
    h.RefinedBy (h.attempt x).1 := by
  rcases h.attempt_outcome x.1 x.2 with ⟨-, e, hon⟩ | ⟨hnot, h', hon, hroot, hd⟩
  · have hsame : (h.attempt x).1 = h := congrArg Prod.fst hon
    rw [hsame]
    exact .refl h
  · have hnew : (h.attempt x).1 = h' := congrArg Prod.fst hon
    rw [hnew]
    refine refinedBy_of_parent hroot fun c p hp => ?_
    have hc : c ≠ h'.root := by
      rw [hroot]
      rintro rfl
      exact nomatch hp.symm.trans h.parent_root
    rcases declaredSuper_of_parent hp with hdeclared | rfl
    · refine .single (parent_of_declaredSuper hc ?_)
      rw [hd]
      split_ifs with hx
      · -- Declared once more, with the super class that it has.
        by_contra hne
        refine hnot (Or.inr (Or.inl ⟨p, hx ▸ hdeclared, fun he => hne ?_⟩))
        rw [he]
      · exact hdeclared
    · rw [← hroot]
      exact below_root c

theorem RefinedBy.after (h : Hierarchy) (l : List (ClassId × ClassId)) :
    h.RefinedBy (h.after l) := by
  induction l generalizing h with
  | nil => exact .refl h
  | cons x l ih => exact (RefinedBy.attempt h x).trans (ih _)

end Hierarchy

variable {h h' : Hierarchy}

namespace Hierarchy.RefinedBy

variable (hr : h.RefinedBy h')
include hr

/-- **What was covered stays covered.** -/
theorem le {a b : Ty} (hab : a.le h b) : a.le h' b := by
  have hrenamed := Ty.le_rename hr hab
  rw [Ty.le_iff_below, Ty.normalize_rename, Ty.normalize_rename,
    Ty.rename_id (Ty.isNormal_normalize a), Ty.rename_id (Ty.isNormal_normalize b)] at hrenamed
  exact Ty.le_iff_below.2 hrenamed

/-- **Joins only get lower.** -/
theorem join_le (a b : Ty) : (a.join h' b).le h' (a.join h b) :=
  Ty.join_le_iff.2 ⟨hr.le (Ty.le_join_left h a b), hr.le (Ty.le_join_right h a b)⟩

/-- **Meets only get higher.** -/
theorem meet_le (a b : Ty) : (a.meet h b).le h' (a.meet h' b) :=
  Ty.le_meet_iff.2 ⟨hr.le (Ty.meet_le_left h a b), hr.le (Ty.meet_le_right h a b)⟩

end Hierarchy.RefinedBy

namespace Hierarchy

/-- **What is known of types over `h` stays true over `h'`**, whether or not they are in normal
form: what is covered stays covered, joins only get lower, and meets only get higher.  None of the
questions is a violation. -/
structure AnswersKept (h h' : Hierarchy) : Prop where
  le : ∀ a b : Ty, a.IsProper → b.IsProper → a.tryLe h b = .ok true → a.tryLe h' b = .ok true
  join : ∀ a b : Ty, a.IsProper → b.IsProper → ∃ j j', a.tryJoin h b = .ok j ∧
    a.tryJoin h' b = .ok j' ∧ j'.tryLe h' j = .ok true
  meet : ∀ a b : Ty, a.IsProper → b.IsProper →
    (a.meet h b).tryLe h' (a.meet h' b) = .ok true

theorem RefinedBy.answersKept (hr : h.RefinedBy h') : AnswersKept h h' where
  le a b ha hb hab := by
    rw [Ty.tryLe_of_proper _ ha hb] at hab ⊢
    exact congrArg Except.ok (hr.le (Except.ok.inj hab))
  join a b ha hb := by
    refine ⟨_, _, Ty.tryJoin_of_proper h ha hb, Ty.tryJoin_of_proper h' ha hb, ?_⟩
    rw [Ty.tryLe_of_proper h' (Ty.join_isProper ha hb) (Ty.join_isProper ha hb)]
    exact congrArg Except.ok (hr.join_le a b)
  meet a b ha hb := by
    rw [Ty.tryLe_of_proper h' (Ty.meet_isProper ha hb) (Ty.meet_isProper ha hb)]
    exact congrArg Except.ok (hr.meet_le a b)

theorem below_of_declare {c super : ClassId} (hdeclare : h.declare c super = .ok h') :
    h'.Below c super := by
  have hattempt := attempt_eq_ok_iff.2 hdeclare
  rcases h.attempt_outcome c super with ⟨-, e, hon⟩ | ⟨hnot, k, hon, hroot, hd⟩
  · exact nomatch congrArg Prod.snd (hattempt.symm.trans hon)
  · obtain rfl : h' = k := congrArg Prod.fst (hattempt.symm.trans hon)
    refine .single (parent_of_declaredSuper (fun he => hnot (Or.inl (he.trans hroot))) ?_)
    exact (hd c).trans (if_pos rfl)

/-- **A class that is declared lies below its super class from then on, and takes back nothing that
was known of types**, nor do those that are declared, or refused, after it. -/
theorem declaring_keeps_answers {c super : ClassId} (hdeclare : h.declare c super = .ok h') :
    h'.Below c super ∧ AnswersKept h h' ∧ ∀ later, AnswersKept h (h'.after later) := by
  have hr := RefinedBy.attempt h (c, super)
  rw [attempt_eq_ok_iff.2 hdeclare] at hr
  exact ⟨below_of_declare hdeclare, hr.answersKept,
    fun later => (hr.trans (.after h' later)).answersKept⟩

theorem not_below_ofRoot {root c d : ClassId} (hc : c ≠ root) (hd : d ≠ c) :
    ¬ (ofRoot root).Below d c := by
  rw [(holds_ofRoot root).below_iff hc]
  intro hdc
  rcases hdc.cases_head with heq | ⟨p, hp, -⟩
  · exact hd heq
  · exact List.not_mem_nil hp

/-- Two classes side by side, one of which is then declared below the other.  Arrays of the first
one are arrays of the second from then on, and what was known before is kept. -/
theorem declaring_keeps_answers_ofRoot :
    ∃ h', (ofRoot ⟨0⟩).declare ⟨1⟩ ⟨2⟩ = .ok h' ∧ AnswersKept (ofRoot ⟨0⟩) h' ∧
      (Shape.array (.cls ⟨1⟩) 2).Below h' (.array (.cls ⟨2⟩) 2) ∧
      ¬ (Shape.array (.cls ⟨1⟩) 2).Below (ofRoot ⟨0⟩) (.array (.cls ⟨2⟩) 2) := by
  have hapart : ∀ c d : ClassId, c ≠ ⟨0⟩ → d ≠ c → ¬ (ofRoot ⟨0⟩).Below d c :=
    fun c d => not_below_ofRoot
  obtain ⟨h', hon, -⟩ : ∃ h', (ofRoot ⟨0⟩).attempt (⟨1⟩, ⟨2⟩) = (h', .ok ()) ∧ _ :=
    attempt_of_not_below (by decide) rfl (hapart ⟨1⟩ ⟨2⟩ (by decide) (by decide))
  have hdeclare := attempt_eq_ok_iff.1 hon
  obtain ⟨hbelow, hkept, -⟩ := declaring_keeps_answers hdeclare
  refine ⟨h', hdeclare, hkept, ⟨rfl, hbelow⟩, fun hbefore => ?_⟩
  exact hapart ⟨2⟩ ⟨1⟩ (by decide) (by decide) hbefore.2

end Hierarchy
end IrAnalysis
