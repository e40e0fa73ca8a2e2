/-
# Evaluating with less known

A value lies below another if the other says the same or less: nothing lies above `unknown` and
nothing below `bottom`, and all others are apart (`AbsVal.le_iff`).  Where an operand is raised,
either nothing came of the operation before or the operand is `unknown` now.  What an operation
makes of `unknown` covers whatever it made of the operand before (`AbsVal.bitwise_le_unknown`):
a zero or an all-ones operand beside it either decides the result alone, and then it did so before,
or leaves it unknown.  So operations are monotone (`BitOp.apply_le_apply`), and trees of them are.
-/

import IrAnalysis.Proofs.Evaluation

namespace IrAnalysis
namespace AbsVal

variable {a b c a' b' : AbsVal}

theorem le_iff : a.le b = true ↔ a = bottom ∨ a = b ∨ b = unknown := by
  unfold le join
  cases a <;> cases b <;> simp
  all_goals split_ifs with h <;> simp [h]

theorem bottom_le (a : AbsVal) : bottom.le a = true := le_iff.2 (Or.inl rfl)

theorem le_refl (a : AbsVal) : a.le a = true := le_iff.2 (Or.inr (Or.inl rfl))

theorem le_unknown (a : AbsVal) : a.le unknown = true := le_iff.2 (Or.inr (Or.inr rfl))

theorem le_trans (hab : a.le b = true) (hbc : b.le c = true) : a.le c = true := by
  rcases le_iff.1 hab with rfl | rfl | rfl
  · exact bottom_le c
  · exact hbc
  · rcases le_iff.1 hbc with h | rfl | rfl
    · cases h
    · exact hab
    · exact le_unknown a

/-! ### One operation -/

variable {both : Int64 → Int64 → Int64} {one : Int64 → AbsVal → AbsVal}

theorem bitwise_comm (hboth : ∀ m n, both m n = both n m) (a b : AbsVal) :
    bitwise both one a b = bitwise both one b a := by
  cases a <;> cases b <;> simp [bitwise, hboth]

/-- What comes of an operation with `unknown` covers what comes of it with any other value, if that
is so beside a number. -/
theorem bitwise_le_unknown (hnumber : ∀ m n, (number (both m n)).le (one n unknown) = true)
    (hone : ∀ n x, (one n x).le (one n unknown) = true) (a b : AbsVal) :
    (bitwise both one a b).le (bitwise both one unknown b) = true := by
  cases b with
  | bottom =>
    rw [bitwise_bottom_right]
    exact bottom_le _
  | number n =>
    cases a with
    | bottom => exact bottom_le _
    | number m => exact hnumber m n
    | unknown | null | string _ | field _ => exact hone n _
  | unknown | null | string _ | field _ => exact le_unknown _

/-- Raising the left operand raises the result. -/
theorem bitwise_le_left (hnumber : ∀ m n, (number (both m n)).le (one n unknown) = true)
    (hone : ∀ n x, (one n x).le (one n unknown) = true) (ha : a.le a' = true) (b : AbsVal) :
    (bitwise both one a b).le (bitwise both one a' b) = true := by
  rcases le_iff.1 ha with rfl | rfl | rfl
  · exact bottom_le _
  · exact le_refl _
  · exact bitwise_le_unknown hnumber hone a b

theorem bitwise_le_bitwise (hboth : ∀ m n, both m n = both n m)
    (hnumber : ∀ m n, (number (both m n)).le (one n unknown) = true)
    (hone : ∀ n x, (one n x).le (one n unknown) = true) (ha : a.le a' = true)
    (hb : b.le b' = true) : (bitwise both one a b).le (bitwise both one a' b') = true := by
  have hright : (bitwise both one a' b).le (bitwise both one a' b') = true := by
    rw [bitwise_comm hboth a' b, bitwise_comm hboth a' b']
    exact bitwise_le_left hnumber hone hb a'
  exact le_trans (bitwise_le_left hnumber hone ha b) hright

end AbsVal

/-- **Operations are monotone.** -/
theorem BitOp.apply_le_apply (op : BitOp) {a a' b b' : AbsVal} (ha : a.le a' = true)
    (hb : b.le b' = true) : (op.apply a b).le (op.apply a' b') = true := by
  cases op with
  | or =>
    refine AbsVal.bitwise_le_bitwise Int64.or_comm (fun m n => ?_) (fun n x => ?_) ha hb
    · split_ifs with hzero hones
      · exact AbsVal.le_unknown _
      · rw [hones, Int64.or_neg_one]
        exact AbsVal.le_refl _
      · exact AbsVal.le_unknown _
    · split_ifs
      · exact AbsVal.le_unknown x
      · exact AbsVal.le_refl _
      · exact AbsVal.le_unknown _
  | and =>
    refine AbsVal.bitwise_le_bitwise Int64.and_comm (fun m n => ?_) (fun n x => ?_) ha hb
    · split_ifs with hzero
      · rw [hzero, Int64.and_zero]
        exact AbsVal.le_refl _
      · exact AbsVal.le_unknown _
      · exact AbsVal.le_unknown _
    · split_ifs
      · exact AbsVal.le_refl _
      · exact AbsVal.le_unknown x
      · exact AbsVal.le_unknown _
  | xor =>
    refine AbsVal.bitwise_le_bitwise Int64.xor_comm (fun m n => ?_) (fun n x => ?_) ha hb
    · split_ifs <;> exact AbsVal.le_unknown _
    · split_ifs <;> exact AbsVal.le_unknown _

namespace Computation

variable {state state' : Parameter → AbsVal}

/-- **Evaluation is monotone**: where less is known of the arguments, no more is known of the
result. -/
theorem eval_le_eval (hstate : ∀ p, (state p).le (state' p) = true) (t : Computation) :
    (t.eval state).le (t.eval state') = true := by
  induction t with
  | unknown => exact AbsVal.le_refl .unknown
  | value v => exact AbsVal.le_refl v
  | argument p => exact hstate p
  | binop op l r ihl ihr =>
    rw [eval_binop, eval_binop]
    exact op.apply_le_apply ihl ihr

/-- `p & q | p` where `q` is zero and `p` is 12 first and unknown then: the operation on both stays
zero, and the whole goes from 12 to unknown. -/
theorem eval_le_eval_zeroOperand :
    let t := binop .or (binop .and (argument ⟨⟨1⟩, 0⟩) (argument ⟨⟨1⟩, 1⟩)) (argument ⟨⟨1⟩, 0⟩)
    let state (v : AbsVal) (x : Parameter) : AbsVal := if x.position = 0 then v else .number 0
    (∀ x, (state (.number 12) x).le (state .unknown x) = true) ∧
      t.eval (state (.number 12)) = .number 12 ∧ t.eval (state .unknown) = .unknown ∧
      (t.eval (state (.number 12))).le (t.eval (state .unknown)) = true := by
  intro t state
  have hstate : ∀ x, (state (.number 12) x).le (state .unknown x) = true := by
    intro x
    by_cases hx : x.position = 0
    · exact AbsVal.le_iff.2 (Or.inr (Or.inr (if_pos hx)))
    · simp only [state, if_neg hx, AbsVal.le_refl]
  exact ⟨hstate, by decide, by decide, eval_le_eval hstate t⟩

end Computation
end IrAnalysis
