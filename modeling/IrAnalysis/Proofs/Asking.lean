/-
# What an evaluation asks for

The leaves of a tree stand in a row, and an evaluation goes through them from left to right.  An
operation stops at an operand that is `bottom`, and no operation makes `bottom` of anything else
(`BitOp.apply_eq_bottom`).  So a tree is `bottom` exactly if some leaf of it is
(`Computation.eval_eq_bottom`), and the first such leaf stops all operations around it, however
deep it lies: the many places where an evaluation may stop are one cut through the row of leaves,
and the parameters asked for are those that stand before it (`Computation.run_evalM_note`).
-/

import IrAnalysis.Proofs.Evaluation
import Mathlib.Tactic.ByContra

namespace IrAnalysis

variable {a b : AbsVal}

theorem AbsVal.isBottom_iff : a.isBottom = true ↔ a = .bottom := by
  cases a <;> simp [isBottom]

/-- Nothing comes of a bitwise operation only if nothing comes of an operand, as long as something
comes of each value beside a number. -/
theorem AbsVal.bitwise_eq_bottom {both : Int64 → Int64 → Int64} {one : Int64 → AbsVal → AbsVal}
    (hone : ∀ n x, x ≠ bottom → one n x ≠ bottom) :
    bitwise both one a b = bottom ↔ a = bottom ∨ b = bottom := by
  constructor
  · intro h
    by_contra hne
    rw [not_or] at hne
    cases a with
    | bottom => exact hne.1 rfl
    | number m =>
      cases b with
      | bottom => exact hne.2 rfl
      | number n => cases h
      | unknown | null | string _ | field _ => exact hone m _ hne.2 h
    | unknown | null | string _ | field _ =>
      cases b with
      | bottom => exact hne.2 rfl
      | number n => exact hone n _ hne.1 h
      | unknown | null | string _ | field _ => cases h
  · rintro (rfl | rfl)
    · exact bitwise_bottom_left _ _ b
    · exact bitwise_bottom_right _ _ a

/-- **Nothing comes of an operation exactly if nothing comes of an operand.** -/
theorem BitOp.apply_eq_bottom (op : BitOp) :
    op.apply a b = .bottom ↔ a = .bottom ∨ b = .bottom := by
  cases op with
  | or =>
    refine AbsVal.bitwise_eq_bottom fun n x hx => ?_
    split_ifs
    · exact hx
    · exact nofun
    · exact nofun
  | and =>
    refine AbsVal.bitwise_eq_bottom fun n x hx => ?_
    split_ifs
    · exact nofun
    · exact hx
    · exact nofun
  | xor =>
    refine AbsVal.bitwise_eq_bottom fun n x hx => ?_
    split_ifs
    · exact hx
    · exact nofun

namespace Computation

variable {state : Parameter → AbsVal} {xs ys : List Computation}

/-- The leaves of a tree from left to right. -/
def leaves : Computation → List Computation
  | unknown => [unknown]
  | value v => [value v]
  | argument p => [argument p]
  | binop _ l r => l.leaves ++ r.leaves

/-- Nothing comes of the leaf: it is `bottom`, or an argument that is. -/
def isDead (state : Parameter → AbsVal) : Computation → Bool
  | value v => v.isBottom
  | argument p => (state p).isBottom
  | unknown | binop .. => false

/-- The parameter that a leaf reads. -/
def parameter? : Computation → Option Parameter
  | argument p => some p
  | unknown | value _ | binop .. => none

/-! ### The row of leaves -/

/-- The leaves up to the first dead one and with it, or all of them if there is none. -/
def upToDead (state : Parameter → AbsVal) (xs : List Computation) : List Computation :=
  xs.take (xs.findIdx (isDead state) + 1)

theorem upToDead_singleton (state : Parameter → AbsVal) (x : Computation) :
    upToDead state [x] = [x] := by
  rw [upToDead, List.take_succ_cons, List.take_nil]

theorem upToDead_of_alive (h : ¬ ∃ x ∈ xs, isDead state x = true) : upToDead state xs = xs := by
  have hidx : xs.length ≤ xs.findIdx (isDead state) :=
    Nat.le_of_not_lt (mt List.findIdx_lt_length.1 h)
  exact List.take_of_length_le (Nat.le_succ_of_le hidx)

theorem upToDead_append_of_dead (h : ∃ x ∈ xs, isDead state x = true) :
    upToDead state (xs ++ ys) = upToDead state xs := by
  have hidx : xs.findIdx (isDead state) < xs.length := List.findIdx_lt_length.2 h
  rw [upToDead, List.findIdx_append, if_pos hidx, List.take_append_of_le_length hidx, upToDead]

theorem upToDead_append_of_alive (h : ¬ ∃ x ∈ xs, isDead state x = true) :
    upToDead state (xs ++ ys) = xs ++ upToDead state ys := by
  rw [upToDead, List.findIdx_append, if_neg (mt List.findIdx_lt_length.1 h), Nat.add_right_comm,
    Nat.add_comm, List.take_length_add_append, upToDead]

/-! ### Evaluating -/

/-- **A tree is `bottom` exactly if some leaf of it is.** -/
theorem eval_eq_bottom (state : Parameter → AbsVal) (t : Computation) :
    t.eval state = .bottom ↔ ∃ x ∈ t.leaves, isDead state x = true := by
  induction t with
  | unknown => exact iff_of_false nofun (by simp [leaves, isDead])
  | value v =>
    show v = .bottom ↔ _
    simp [leaves, isDead, AbsVal.isBottom_iff]
  | argument p =>
    show state p = .bottom ↔ _
    simp [leaves, isDead, AbsVal.isBottom_iff]
  | binop op l r ihl ihr =>
    rw [eval_binop, BitOp.apply_eq_bottom, ihl, ihr, leaves]
    simp only [List.mem_append, or_and_right, exists_or]

/-- The run of an operation that notes what it asks for, from the runs of its operands. -/
theorem run_binop_note {op : BitOp} {l r : Computation} {noted notedL notedR : List Parameter}
    (hl : (l.evalM (note state)).run noted = (a, notedL))
    (hr : (r.evalM (note state)).run notedL = (b, notedR)) :
    ((binop op l r).evalM (note state)).run noted =
      (op.apply a b, if a = .bottom then notedL else notedR) := by
  rw [evalM, StateT.run_bind, hl]
  show StateT.run (if a.isBottom = true then _ else _) notedL = _
  by_cases ha : a = .bottom
  · rw [ha, BitOp.apply_bottom_left]
    rfl
  · rw [if_neg (mt AbsVal.isBottom_iff.1 ha), if_neg ha, StateT.run_bind, hr]
    show StateT.run (if b.isBottom = true then _ else _) notedR = _
    by_cases hb : b = .bottom
    · rw [hb, BitOp.apply_bottom_right]
      rfl
    · rw [if_neg (mt AbsVal.isBottom_iff.1 hb)]
      rfl

/-- **What an evaluation notes**, on top of what was noted before it. -/
theorem run_evalM_note (state : Parameter → AbsVal) (t : Computation) (noted : List Parameter) :
    (t.evalM (note state)).run noted =
      (t.eval state, noted ++ (upToDead state t.leaves).filterMap parameter?) := by
  induction t generalizing noted with
  | unknown =>
    rw [leaves, upToDead_singleton]
    exact congrArg (Prod.mk AbsVal.unknown) (List.append_nil noted).symm
  | value v =>
    rw [leaves, upToDead_singleton]
    exact congrArg (Prod.mk v) (List.append_nil noted).symm
  | argument p =>
    rw [leaves, upToDead_singleton]
    rfl
  | binop op l r ihl ihr =>
    rw [run_binop_note (ihl noted) (ihr _), eval_binop, leaves]
    by_cases hl : l.eval state = .bottom
    · -- The right operand is not gone through: the row ends among the leaves of the left one.
      rw [if_pos hl, upToDead_append_of_dead ((eval_eq_bottom state l).1 hl)]
    · have halive := mt (eval_eq_bottom state l).2 hl
      rw [if_neg hl, upToDead_append_of_alive halive, upToDead_of_alive halive,
        List.filterMap_append, List.append_assoc]

/-- **Only what stands before the first dead leaf is asked for**, from left to right and each time
that it stands there; and a tree is `bottom` exactly if there is such a leaf. -/
theorem evaluation_asks (state : Parameter → AbsVal) (t : Computation) :
    (t.eval state = .bottom ↔ ∃ x ∈ t.leaves, isDead state x = true) ∧
      t.trace state = (t.eval state, (upToDead state t.leaves).filterMap parameter?) :=
  ⟨eval_eq_bottom state t, run_evalM_note state t []⟩

end Computation
end IrAnalysis
