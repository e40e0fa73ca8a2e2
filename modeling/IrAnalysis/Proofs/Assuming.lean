/-
# What an assumption leaves of a type

A pass-through operation hands on the type of its operand, or what an assumption leaves of it.  An
upper bound is met; that a value is not null is another matter, for there `null` leaves nothing
and `top` stays `top`, though `null` lies below it.

Whichever it is, the type fixpoint needs the same of it (`Operation.Restricts`): no type gets
wider, the order of types is kept, and what was assumed once is not gained a second time.  So no
type that an operation gives out is narrowed by the same operation (`Operation.outputType_again`),
and a bound need not be written in normal form for that.
-/

import IrAnalysis.Proofs.TypeFlow

namespace IrAnalysis

namespace Ty

variable {h : Hierarchy} {a : Ty}

/-- Without `null` there is no more of a type in normal form than before. -/
theorem asNonNull_le (ha : a.IsNormal) : a.asNonNull.le h a := by
  rw [le_iff_below, asNonNull_isNormal.eq, ha.eq]
  rcases a with _ | _ | p | _ | ⟨s, n⟩
  case ref =>
    refine ⟨Shape.Below.refl s, Nullness.le_iff.2 ?_⟩
    rcases isNormal_ref_iff.1 ha with rfl | rfl
    · exact Or.inl rfl
    · exact Or.inr (Or.inr rfl)
  case null => exact bottom_below _
  all_goals exact Below.refl _

theorem asNonNull_asNonNull (a : Ty) : a.asNonNull.asNonNull = a.asNonNull := by
  rcases a with _ | _ | p | _ | ⟨s, n⟩ <;> rfl

/-- A bound that was met is met already. -/
theorem meet_meet_self (h : Hierarchy) (a b : Ty) : (a.meet h b).meet h b = a.meet h b := by
  refine le_antisymm (h := h) (meet_isNormal h _ _) (meet_isNormal h _ _) (meet_le_left h _ _) ?_
  exact le_meet_iff.2 ⟨le_refl h _, meet_le_right h a b⟩

end Ty

namespace Operation

variable {h : Hierarchy} {op : Operation} {a : Ty}

/-- **No type gets wider.** -/
theorem outputType_le (ha : a.IsNormal) : (op.outputType h a).le h a := by
  unfold outputType
  split
  · exact Ty.asNonNull_le ha
  · exact Ty.meet_le_left h _ _
  · exact Ty.le_refl h a

/-- **What was assumed once is not gained a second time.** -/
theorem outputType_again (h : Hierarchy) (op : Operation) (a : Ty) :
    op.outputType h (op.outputType h a) = op.outputType h a := by
  cases op with
  | assume fact =>
    cases fact with
    | unknown => rfl
    | nonNull => exact Ty.asNonNull_asNonNull a
    | upperBound bound => exact Ty.meet_meet_self h a bound
  | _ => rfl

/-- **The operation takes from a type what it assumes not to be there**, and nothing else.  On types
in normal form it commits no violation. -/
structure Restricts (h : Hierarchy) (op : Operation) : Prop where
  below : ∀ a : Ty, a.IsNormal → a.IsProper → ∃ r, op.tryOutputType h a = .ok r ∧
    r.IsNormal ∧ r.IsProper ∧ r.tryLe h a = .ok true
  bottom : op.tryOutputType h .bottom = .ok .bottom
  /-- Types are compared as well after the operation. -/
  mono : ∀ a b : Ty, a.IsNormal → a.IsProper → b.IsNormal → b.IsProper →
    a.tryLe h b = .ok true → ∃ r s, op.tryOutputType h a = .ok r ∧
      op.tryOutputType h b = .ok s ∧ r.tryLe h s = .ok true
  /-- The operation leaves alone what it gives out. -/
  again : ∀ a : Ty, a.IsNormal → a.IsProper → ∃ r, op.tryOutputType h a = .ok r ∧
    op.tryOutputType h r = .ok r

/-- **Every operation restricts types**, whether it copies a value, assumes that it is not null or
assumes a bound, as long as the bound names no array without dimensions. -/
theorem restricts_of_dimensioned (h : Hierarchy) (hop : op.Dimensioned) : op.Restricts h where
  below a ha hap := by
    have hproper := outputType_isProper (h := h) hop hap
    refine ⟨_, tryOutputType_of_proper h hap op, outputType_isNormal ha, hproper, ?_⟩
    rw [Ty.tryLe_of_proper h hproper hap, outputType_le ha]
  bottom := by
    rw [tryOutputType_of_proper h Ty.isProper_bottom, outputType_bottom]
  mono a b ha hap hb hbp hab := by
    rw [Ty.tryLe_of_proper h hap hbp] at hab
    refine ⟨_, _, tryOutputType_of_proper h hap op, tryOutputType_of_proper h hbp op, ?_⟩
    rw [Ty.tryLe_of_proper h (outputType_isProper hop hap) (outputType_isProper hop hbp),
      outputType_le_outputType ha hb (Except.ok.inj hab)]
  again a ha hap := by
    refine ⟨_, tryOutputType_of_proper h hap op, ?_⟩
    rw [tryOutputType_of_proper h (outputType_isProper hop hap), outputType_again]

/-- An assumption whose bound is not in normal form: an array that is certainly null. -/
def assumeNullArray : Operation := .assume (.upperBound (.ref (.array (.cls ⟨1⟩) 2) .null))

/-- Of arrays of the same shape such an assumption leaves `null`, if they may be null, and of
numbers nothing. -/
theorem restricts_assumeNullArray :
    assumeNullArray.Dimensioned ∧ assumeNullArray.Restricts (.ofRoot ⟨0⟩) ∧
      assumeNullArray.tryOutputType (.ofRoot ⟨0⟩) (.ref (.array (.cls ⟨1⟩) 2) .maybe) =
        .ok .null ∧
      assumeNullArray.tryOutputType (.ofRoot ⟨0⟩) (.ref (.array (.cls ⟨1⟩) 2) .nonNull) =
        .ok .bottom ∧
      assumeNullArray.tryOutputType (.ofRoot ⟨0⟩) (.prim .int) = .ok .bottom :=
  ⟨by decide, restricts_of_dimensioned _ (by decide), rfl, rfl, rfl⟩

/-- Out of normal form a type may get wider: nothing was there, and now a reference is. -/
example : (assume .nonNull).outputType (.ofRoot ⟨0⟩) (.ref (.cls ⟨1⟩) .never) =
    .ref (.cls ⟨1⟩) .nonNull := rfl

end Operation
end IrAnalysis
