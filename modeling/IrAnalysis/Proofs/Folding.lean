/-
# The form of trees that were built

An operation is built from trees that were built before it, and what can be folded is folded at
once.  So an operation that stays reads a parameter, and no operand of it is a value that says
nothing, as there is another leaf for that; the same holds of the operations in its operands
(`Computation.Canonical.combine`).  To build such a tree once more changes nothing
(`Computation.Canonical.folded_eq`): the canonical trees are exactly those that can be built.

Folding looks at the operands only as they are spelled in the end, so two expressions that differ in
how leaves that say nothing are spelled are built to one tree (`Computation.Respelled.folded_eq`).

Whether a tree reads a parameter is asked each time that it becomes an operand.  An operation that
is kept has noted it, from what its operands have noted, and is not looked into again
(`Computation.Noted`).  The notes are true at every depth and change nothing in what is built
(`Computation.Noted.Exact.combine`).
-/

import IrAnalysis.Proofs.Asking

namespace IrAnalysis
namespace Computation

variable {t l r l' r' : Computation} {op : BitOp}

/-! ### Leaves -/

/-- **A tree is open exactly if a parameter stands among its leaves.** -/
theorem isOpen_iff (t : Computation) : t.isOpen = true ↔ ∃ p, argument p ∈ t.leaves := by
  induction t with
  | unknown | value _ | argument _ => simp [isOpen, leaves]
  | binop op l r ihl ihr =>
    rw [isOpen, Bool.or_eq_true, ihl, ihr, leaves]
    simp only [List.mem_append, exists_or]

theorem ofValue_ne (v : AbsVal) : ofValue v ≠ value .unknown := by
  cases v <;> simp [ofValue, AbsVal.isUnknown]

theorem normalize_ne (t : Computation) : t.normalize ≠ value .unknown := by
  cases t with
  | value v => exact ofValue_ne v
  | unknown | argument _ | binop _ _ _ => exact nofun

theorem normalize_of_ne (ht : t ≠ value .unknown) : t.normalize = t := by
  cases t with
  | value v =>
    cases v with
    | unknown => exact absurd rfl ht
    | bottom | null | number _ | string _ | field _ => rfl
  | unknown | argument _ | binop _ _ _ => rfl

/-! ### Canonical trees -/

/-- **Each operation of the tree reads a parameter, and none has an operand that is written as a
value and says nothing.** -/
def Canonical : Computation → Prop
  | binop _ l r => (∃ p, argument p ∈ l.leaves ++ r.leaves) ∧ l ≠ value .unknown ∧
      r ≠ value .unknown ∧ l.Canonical ∧ r.Canonical
  | unknown | value _ | argument _ => True

theorem canonical_ofValue (v : AbsVal) : (ofValue v).Canonical := by
  cases v <;> exact trivial

theorem Canonical.normalize (ht : t.Canonical) : t.normalize.Canonical := by
  cases t with
  | value v => exact canonical_ofValue v
  | unknown | argument _ | binop _ _ _ => exact ht

theorem canonical_binop_iff : (binop op l r).Canonical ↔ (l.isOpen || r.isOpen) = true ∧
    l ≠ value .unknown ∧ r ≠ value .unknown ∧ l.Canonical ∧ r.Canonical := by
  have hopen := isOpen_iff (binop op l r)
  rw [isOpen, leaves] at hopen
  rw [Canonical, hopen]

/-- **What is built of canonical trees is canonical.** -/
theorem Canonical.combine (op : BitOp) (hl : l.Canonical) (hr : r.Canonical) :
    (combine op l r).Canonical := by
  cases hopen : l.isOpen || r.isOpen with
  | true =>
    rw [combine_of_isOpen op hopen, canonical_binop_iff, isOpen_normalize, isOpen_normalize]
    exact ⟨hopen, normalize_ne l, normalize_ne r, hl.normalize, hr.normalize⟩
  | false =>
    rw [combine_of_closed op hopen]
    exact canonical_ofValue _

theorem canonical_folded (t : Computation) : t.folded.Canonical := by
  induction t with
  | unknown | value _ | argument _ => exact trivial
  | binop op l r ihl ihr => exact ihl.combine op ihr

/-- **Building a canonical tree once more changes nothing.** -/
theorem Canonical.folded_eq (ht : t.Canonical) : t.folded = t := by
  induction t with
  | unknown | value _ | argument _ => rfl
  | binop op l r ihl ihr =>
    obtain ⟨hopen, hnel, hner, hl, hr⟩ := canonical_binop_iff.1 ht
    rw [folded, ihl hl, ihr hr, combine_of_isOpen op hopen, normalize_of_ne hnel,
      normalize_of_ne hner]

/-! ### Spellings -/

/-- **The two operands are the same but for how leaves that say nothing are spelled in them.** -/
inductive Respelled : Computation → Computation → Prop
  | same (t : Computation) : Respelled t t
  | plain : Respelled (value .unknown) unknown
  | wrapped : Respelled unknown (value .unknown)
  | binop (op : BitOp) {l r l' r' : Computation} : Respelled l l' → Respelled r r' →
      Respelled (binop op l r) (binop op l' r')

/-- An operation depends on its operands as they are spelled in the end. -/
theorem combine_congr (hl : l.normalize = l'.normalize) (hr : r.normalize = r'.normalize) :
    combine op l r = combine op l' r' := by
  rw [combine, combine, hl, hr]

theorem Respelled.normalize_folded (h : Respelled l r) :
    l.folded.normalize = r.folded.normalize := by
  induction h with
  | same _ | plain | wrapped => rfl
  | binop op _ _ ihl ihr => rw [folded, folded, combine_congr ihl ihr]

/-- **Operations on operands that are spelled in different ways are built to one tree.** -/
theorem Respelled.folded_eq (op : BitOp) (hl : Respelled l l') (hr : Respelled r r') :
    (Computation.binop op l r).folded = (Computation.binop op l' r').folded :=
  combine_congr hl.normalize_folded hr.normalize_folded

/-! ### Notes -/

/-- A tree as it is kept: an operation has noted, as it was made, whether it is open. -/
inductive Noted
  | unknown
  | value (v : AbsVal)
  | argument (p : Parameter)
  | binop (op : BitOp) (left right : Noted) (isOpen : Bool)

namespace Noted

variable {s : Noted}

/-- The tree without the notes. -/
def plain : Noted → Computation
  | unknown => .unknown
  | value v => .value v
  | argument p => .argument p
  | binop op l r _ => .binop op l.plain r.plain

/-- The tree reads a parameter, as far as it has noted. -/
def isOpen : Noted → Bool
  | unknown | value _ => false
  | argument _ => true
  | binop _ _ _ isOpen => isOpen

/-- The known value as `Computation.ofValue` writes it; a leaf has nothing to note. -/
def ofValue (v : AbsVal) : Noted := if v.isUnknown then unknown else value v

/-- The tree with a value written as `ofValue` writes it. -/
def normalize : Noted → Noted
  | value v => ofValue v
  | s => s

/-- The operation on two trees, with a note of what they have noted. -/
def combine (op : BitOp) (left right : Noted) : Noted :=
  let l := left.normalize
  let r := right.normalize
  let isOpen := l.isOpen || r.isOpen
  if l.plain.isUnknown && r.plain.isUnknown then unknown
  else if isOpen then binop op l r isOpen
  else ofValue (evalUnreachable (.binop op l.plain r.plain))

/-- The tree built from the leaves of an expression. -/
def built : Computation → Noted
  | .unknown => unknown
  | .value v => value v
  | .argument p => argument p
  | .binop op l r => combine op (built l) (built r)

/-- **All notes are true**: of the tree and of all that stands in it. -/
def Exact : Noted → Prop
  | binop op l r isOpen =>
    (isOpen = true ↔ ∃ p, Computation.argument p ∈ (Computation.binop op l.plain r.plain).leaves) ∧
      l.Exact ∧ r.Exact
  | unknown | value _ | argument _ => True

theorem plain_ofValue (v : AbsVal) : (ofValue v).plain = Computation.ofValue v := by
  cases v <;> rfl

theorem plain_normalize (s : Noted) : s.normalize.plain = s.plain.normalize := by
  cases s with
  | value v => exact plain_ofValue v
  | unknown | argument _ | binop _ _ _ _ => rfl

theorem exact_ofValue (v : AbsVal) : (ofValue v).Exact := by
  cases v <;> exact trivial

theorem Exact.normalize (hs : s.Exact) : s.normalize.Exact := by
  cases s with
  | value v => exact exact_ofValue v
  | unknown | argument _ | binop _ _ _ _ => exact hs

theorem Exact.isOpen_eq (hs : s.Exact) : s.isOpen = s.plain.isOpen := by
  cases s with
  | unknown | value _ | argument _ => rfl
  | binop op l r isOpen => exact Bool.eq_iff_iff.2 (hs.1.trans (isOpen_iff _).symm)

/-- **Building from notes that are true is building, and notes what is true.** -/
theorem Exact.combine {l r : Noted} (op : BitOp) (hl : l.Exact) (hr : r.Exact) :
    (combine op l r).plain = Computation.combine op l.plain r.plain ∧ (combine op l r).Exact := by
  have hopen : (l.normalize.isOpen || r.normalize.isOpen) =
      (l.plain.normalize.isOpen || r.plain.normalize.isOpen) := by
    rw [hl.normalize.isOpen_eq, hr.normalize.isOpen_eq, plain_normalize, plain_normalize]
  unfold Noted.combine Computation.combine
  simp only [plain_normalize, hopen]
  split
  · exact ⟨rfl, trivial⟩
  · split
    · refine ⟨by rw [plain, plain_normalize, plain_normalize], ?_, hl.normalize, hr.normalize⟩
      rw [← isOpen_iff, plain_normalize, plain_normalize]
      rfl
    · exact ⟨plain_ofValue _, exact_ofValue _⟩

theorem built_spec (t : Computation) : (built t).plain = t.folded ∧ (built t).Exact := by
  induction t with
  | unknown | value _ | argument _ => exact ⟨rfl, trivial⟩
  | binop op l r ihl ihr =>
    have hcombine := ihl.2.combine op ihr.2
    rw [ihl.1, ihr.1] at hcombine
    exact hcombine

end Noted

/-- **The trees that can be built are the canonical ones.**  They are open exactly if a parameter
stands among their leaves, which is what they have noted at every depth; and how the leaves of
operands that say nothing were spelled makes no difference. -/
theorem built_is_canonical :
    (∀ t : Computation, (∃ e : Computation, e.folded = t) ↔ t.Canonical) ∧
      (∀ e : Computation, e.folded.isOpen = true ↔ ∃ p, argument p ∈ e.folded.leaves) ∧
      (∀ e : Computation, (Noted.built e).plain = e.folded ∧ (Noted.built e).Exact ∧
        (Noted.built e).isOpen = e.folded.isOpen) ∧
      ∀ op l r l' r', Respelled l l' → Respelled r r' →
        (binop op l r).folded = (binop op l' r').folded := by
  refine ⟨fun t => ⟨?_, fun ht => ⟨t, ht.folded_eq⟩⟩, fun e => isOpen_iff e.folded, fun e => ?_,
    fun op l r l' r' => Respelled.folded_eq op⟩
  · rintro ⟨e, rfl⟩
    exact canonical_folded e
  · obtain ⟨hplain, hexact⟩ := Noted.built_spec e
    exact ⟨hplain, hexact, hplain ▸ hexact.isOpen_eq⟩

/-- `(p | _) ^ (_ & 4)` where nothing is known of two leaves, the first of them spelled as a value
and the second not, or the other way round: the operation on the right is folded, and the one tree
that is built is canonical. -/
theorem built_is_canonical_mixedSpelling :
    let l := binop .or (argument ⟨⟨1⟩, 0⟩) (value .unknown)
    let l' := binop .or (argument ⟨⟨1⟩, 0⟩) unknown
    let r := binop .and unknown (value (.number 4))
    let r' := binop .and (value .unknown) (value (.number 4))
    let t := binop .xor l' unknown
    Respelled l l' ∧ Respelled r r' ∧ (binop .xor l r).folded = t ∧
      (binop .xor l' r').folded = t ∧ t.Canonical := by
  intro l l' r r' t
  obtain ⟨hcanonical, -, -, hrespelled⟩ := built_is_canonical
  have hl : Respelled l l' := .binop .or (.same _) .plain
  have hr : Respelled r r' := .binop .and .wrapped (.same _)
  have ht : (binop .xor l r).folded = t := rfl
  exact ⟨hl, hr, ht, (hrespelled .xor _ _ _ _ hl hr).symm.trans ht, (hcanonical t).1 ⟨_, ht⟩⟩

end Computation
end IrAnalysis
