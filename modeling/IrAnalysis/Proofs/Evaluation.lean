/-
# What a computation evaluates to

A tree is built from its leaves up, and an operation that reads no parameter is folded at once,
in a state where no argument has a value.  The state does not matter to a tree that reads none
(`Computation.eval_of_closed`), so folding changes no value (`Computation.eval_combine`), and
neither does stopping at an operand that is `bottom` (`Computation.eval_eq_strict`).

A value stands for numbers, none of them or all of them or one (`AbsVal.StandsFor`), and each
shortcut of an operation is right for the numbers that its operands stand for
(`BitOp.standsFor_apply`).  So what a tree evaluates to stands for every number that the
operations give, whatever numbers stand at its leaves (`Computation.Results.eval`).
-/

import IrAnalysis.Computation
import Mathlib.Tactic.SplitIfs

namespace IrAnalysis
namespace Computation

variable {t l r : Computation} {op : BitOp} {state : Parameter → AbsVal}

/-! ### Building and evaluating -/

theorem eval_ofValue (state : Parameter → AbsVal) (v : AbsVal) : (ofValue v).eval state = v := by
  cases v <;> rfl

theorem eval_normalize (state : Parameter → AbsVal) (t : Computation) :
    t.normalize.eval state = t.eval state := by
  cases t with
  | value v => exact eval_ofValue state v
  | unknown | argument _ | binop _ _ _ => rfl

theorem eval_of_isUnknown (ht : t.isUnknown = true) (state : Parameter → AbsVal) :
    t.eval state = .unknown := by
  cases t with
  | unknown => rfl
  | value v =>
    cases v with
    | unknown => rfl
    | bottom | null | number _ | string _ | field _ => cases ht
  | argument _ | binop _ _ _ => cases ht

/-- **A tree that reads no parameter has one value**, whatever the arguments are. -/
theorem eval_of_closed (ht : t.isOpen = false) (state state' : Parameter → AbsVal) :
    t.eval state = t.eval state' := by
  induction t with
  | unknown | value _ => rfl
  | argument p => cases ht
  | binop op l r ihl ihr =>
    rw [isOpen, Bool.or_eq_false_iff] at ht
    rw [eval_binop, eval_binop, ihl ht.1, ihr ht.2]

theorem isOpen_normalize (t : Computation) : t.normalize.isOpen = t.isOpen := by
  cases t with
  | value v => cases v <;> rfl
  | unknown | argument _ | binop _ _ _ => rfl

theorem isUnknown_of_isOpen (ht : t.isOpen = true) : t.isUnknown = false := by
  cases t with
  | unknown | value _ => cases ht
  | argument _ | binop _ _ _ => rfl

/-- An operation that reads a parameter stays. -/
theorem combine_of_isOpen (op : BitOp) (hopen : (l.isOpen || r.isOpen) = true) :
    combine op l r = binop op l.normalize r.normalize := by
  rw [← isOpen_normalize l, ← isOpen_normalize r] at hopen
  have hknown : ¬ (l.normalize.isUnknown && r.normalize.isUnknown) = true := by
    rw [Bool.and_eq_true]
    rintro ⟨hl, hr⟩
    rcases Bool.or_eq_true_iff.1 hopen with h | h
    · exact Bool.false_ne_true ((isUnknown_of_isOpen h).symm.trans hl)
    · exact Bool.false_ne_true ((isUnknown_of_isOpen h).symm.trans hr)
  rw [combine, if_neg hknown, if_pos hopen]

/-- An operation that reads none is folded, also where nothing is known of both operands. -/
theorem combine_of_closed (op : BitOp) (hclosed : (l.isOpen || r.isOpen) = false) :
    combine op l r = ofValue (op.apply l.evalUnreachable r.evalUnreachable) := by
  rw [← isOpen_normalize l, ← isOpen_normalize r] at hclosed
  have hvalue : evalUnreachable (binop op l.normalize r.normalize) =
      op.apply l.evalUnreachable r.evalUnreachable := by
    rw [evalUnreachable, eval_binop, eval_normalize, eval_normalize, evalUnreachable,
      evalUnreachable]
  rw [combine, ← hvalue]
  by_cases hunknown : (l.normalize.isUnknown && r.normalize.isUnknown) = true
  · rw [if_pos hunknown, evalUnreachable, eval_binop]
    rw [Bool.and_eq_true] at hunknown
    rw [eval_of_isUnknown hunknown.1, eval_of_isUnknown hunknown.2]
    cases op <;> rfl
  · rw [if_neg hunknown, if_neg (Bool.eq_false_iff.1 hclosed)]

/-- **Folding changes no value.** -/
theorem eval_combine (state : Parameter → AbsVal) (op : BitOp) (l r : Computation) :
    (combine op l r).eval state = op.apply (l.eval state) (r.eval state) := by
  cases hopen : l.isOpen || r.isOpen with
  | true => rw [combine_of_isOpen op hopen, eval_binop, eval_normalize, eval_normalize]
  | false =>
    have hclosed := Bool.or_eq_false_iff.1 hopen
    rw [combine_of_closed op hopen, eval_ofValue, evalUnreachable, evalUnreachable,
      eval_of_closed hclosed.1 _ state, eval_of_closed hclosed.2 _ state]

/-- The tree built anew from its leaves, with all that can be folded. -/
def folded : Computation → Computation
  | binop op l r => combine op l.folded r.folded
  | t => t

/-- The value of a tree with both operands of every operation evaluated, from the leaves up. -/
def strict (state : Parameter → AbsVal) : Computation → AbsVal
  | unknown => .unknown
  | value v => v
  | argument p => state p
  | binop op l r => op.apply (l.strict state) (r.strict state)

theorem eval_eq_strict (state : Parameter → AbsVal) (t : Computation) :
    t.eval state = t.strict state := by
  induction t with
  | unknown | value _ | argument _ => rfl
  | binop op l r ihl ihr => rw [eval_binop, ihl, ihr, strict]

theorem eval_folded (state : Parameter → AbsVal) (t : Computation) :
    t.folded.eval state = t.eval state := by
  induction t with
  | unknown | value _ | argument _ => rfl
  | binop op l r ihl ihr => rw [folded, eval_combine, ihl, ihr, eval_binop]

/-- **Neither folding nor stopping early changes a value**: an operation that is built evaluates to
the operation on the values of its operands, and a whole tree, folded as it is built and evaluated
only as far as needed, to what its leaves give from the bottom up. -/
theorem built_eval_eq_strict (state : Parameter → AbsVal) :
    (∀ op l r, (combine op l r).eval state = op.apply (l.eval state) (r.eval state)) ∧
      ∀ t : Computation, t.folded.eval state = t.strict state := by
  refine ⟨eval_combine state, fun t => ?_⟩
  rw [eval_folded, eval_eq_strict]

end Computation

/-! ### The numbers that a value stands for -/

/-- **The value may be the number**, where the constant fields hold what `content` says. -/
inductive AbsVal.StandsFor (content : FieldId → Int64) : AbsVal → Int64 → Prop
  | unknown (n : Int64) : StandsFor content .unknown n
  | number (n : Int64) : StandsFor content (.number n) n
  | field (f : FieldId) : StandsFor content (.field f) (content f)

namespace BitOp

variable {content : FieldId → Int64} {a b : AbsVal} {m n : Int64}

/-- The operation on numbers, bit by bit. -/
def onNumbers : BitOp → Int64 → Int64 → Int64
  | or => (· ||| ·)
  | and => (· &&& ·)
  | xor => (· ^^^ ·)

theorem apply_numbers (op : BitOp) (m n : Int64) :
    op.apply (.number m) (.number n) = .number (op.onNumbers m n) := by
  cases op <;> rfl

/-- What an operation says of two values is right if it is right beside a number. -/
theorem standsFor_bitwise {both : Int64 → Int64 → Int64} {one : Int64 → AbsVal → AbsVal}
    (hcomm : ∀ m n, both m n = both n m)
    (hone : ∀ m x n, x.StandsFor content n → (one m x).StandsFor content (both m n))
    (ha : a.StandsFor content m) (hb : b.StandsFor content n) :
    (AbsVal.bitwise both one a b).StandsFor content (both m n) := by
  cases ha with
  | number =>
    cases hb with
    | number => exact .number _
    | unknown => exact hone m _ n (.unknown n)
    | field f => exact hone m _ _ (.field f)
  | unknown =>
    cases hb with
    | number => exact hcomm n m ▸ hone n _ m (.unknown m)
    | unknown => exact .unknown _
    | field f => exact .unknown _
  | field f =>
    cases hb with
    | number => exact hcomm n _ ▸ hone n _ _ (.field f)
    | unknown => exact .unknown _
    | field f' => exact .unknown _

/-- **An operation on values covers the operation on the numbers that they stand for.** -/
theorem standsFor_apply (op : BitOp) (ha : a.StandsFor content m) (hb : b.StandsFor content n) :
    (op.apply a b).StandsFor content (op.onNumbers m n) := by
  cases op with
  | or =>
    refine standsFor_bitwise Int64.or_comm (fun m x n hx => ?_) ha hb
    split_ifs with hzero hones
    · rwa [hzero, Int64.zero_or]
    · rw [hones, Int64.neg_one_or]
      exact .number (-1)
    · exact .unknown _
  | and =>
    refine standsFor_bitwise Int64.and_comm (fun m x n hx => ?_) ha hb
    split_ifs with hzero hones
    · rw [hzero, Int64.zero_and]
      exact .number 0
    · rwa [hones, Int64.neg_one_and]
    · exact .unknown _
  | xor =>
    refine standsFor_bitwise Int64.xor_comm (fun m x n hx => ?_) ha hb
    split_ifs with hzero
    · rwa [hzero, Int64.zero_xor]
    · exact .unknown _

end BitOp

namespace Computation

variable {t : Computation} {state : Parameter → AbsVal} {n : Int64}

/-- **A number that the operations of a tree give** if each of its leaves is some number that
`allows` lets its value be.  A parameter that is read twice may be two numbers. -/
inductive Results (allows : AbsVal → Int64 → Prop) (state : Parameter → AbsVal) :
    Computation → Int64 → Prop
  | unknown {n : Int64} : allows .unknown n → Results allows state unknown n
  | value {v : AbsVal} {n : Int64} : allows v n → Results allows state (value v) n
  | argument {p : Parameter} {n : Int64} : allows (state p) n →
      Results allows state (argument p) n
  | binop {op : BitOp} {l r : Computation} {m n : Int64} : Results allows state l m →
      Results allows state r n → Results allows state (binop op l r) (op.onNumbers m n)

/-- What holds of each leaf and goes through the operations holds of the tree. -/
theorem Results.eval {allows : AbsVal → Int64 → Prop}
    (hop : ∀ (op : BitOp) a b m n, allows a m → allows b n →
      allows (op.apply a b) (op.onNumbers m n))
    (h : Results allows state t n) : allows (t.eval state) n := by
  induction h with
  | unknown hn | value hn | argument hn => exact hn
  | @binop op l r m n _ _ ihl ihr =>
    rw [eval_binop]
    exact hop op _ _ _ _ ihl ihr

/-- **What a tree evaluates to covers all that it can result in**, before and after folding; and
where every leaf is a number known it is the number that the operations give. -/
theorem eval_covers_results (state : Parameter → AbsVal) (t : Computation) (n : Int64) :
    (∀ content, Results (AbsVal.StandsFor content) state t n →
      (t.eval state).StandsFor content n ∧ (t.folded.eval state).StandsFor content n) ∧
    (Results (fun v m => v = .number m) state t n → t.eval state = .number n) := by
  refine ⟨fun content h => ?_, fun h => ?_⟩
  · have hcovers := h.eval fun op a b m n ha hb => op.standsFor_apply ha hb
    rw [eval_folded]
    exact ⟨hcovers, hcovers⟩
  · refine h.eval fun op a b m n ha hb => ?_
    rw [ha, hb, op.apply_numbers]

/-- `(p | 4 ^ 4) ^ _` where the argument `p` is what a field holds and the last leaf is unknown. -/
def xoredWithUnknown : Computation :=
  binop .xor (binop .or (argument ⟨⟨1⟩, 0⟩) (binop .xor (value (.number 4)) (value (.number 4))))
    unknown

/-- The field holds 12 and the unknown number is 10: the result is 6, which the value of the tree
covers.  Its left operand is folded to the content of the field. -/
theorem eval_covers_results_xoredWithUnknown :
    let content : FieldId → Int64 := fun _ => 12
    let state : Parameter → AbsVal := fun _ => .field ⟨7⟩
    Results (AbsVal.StandsFor content) state xoredWithUnknown 6 ∧
      (xoredWithUnknown.eval state).StandsFor content 6 ∧
      (xoredWithUnknown.folded.eval state).StandsFor content 6 := by
  intro content state
  have hresult : Results (AbsVal.StandsFor content) state xoredWithUnknown 6 :=
    .binop (m := 12) (n := 10)
      (.binop (m := 12) (n := 0) (.argument (.field ⟨7⟩))
        (.binop (m := 4) (n := 4) (.value (.number 4)) (.value (.number 4))))
      (.unknown (.unknown 10))
  exact ⟨hresult, (eval_covers_results state xoredWithUnknown 6).1 content hresult⟩

end Computation
end IrAnalysis
