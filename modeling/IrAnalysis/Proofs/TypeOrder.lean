/-
# The types of a hierarchy are a lattice

`Ty.Below` is the order of types as one would draw it, without any mention of
joins: `bottom` at the bottom, `top` at the top, the primitive kinds that fit an
`int` below it, `null` below every reference that may be null, and a reference
below another when its shape lies below in the tree of shapes and its nullness
below among the four states.  `Shape.Below` is the order of that tree.

| shape | next above it |
| --- | --- |
| class | its parent |
| array of a class other than the root | array of the parent, as many dimensions |
| array of the root, array of a primitive kind | the root class |

`Ty.le` was defined through the join; `le_iff_below` says that it compares the
normal forms in this order.  For it `join` is the least upper bound
(`join_le_iff`) and `meet` the greatest lower bound (`le_meet_iff`), and
`types_form_lattice` collects what follows.
-/

import IrAnalysis.Ty.Lattice
import IrAnalysis.Proofs.ClassTree
import Mathlib.Tactic.SplitIfs

namespace IrAnalysis

namespace Nullness

theorem le_iff {a b : Nullness} : a.le b ↔ a = b ∨ a = never ∨ b = maybe := by
  cases a <;> cases b <;> decide

theorem join_le_iff {a b c : Nullness} : (a.join b).le c ↔ a.le c ∧ b.le c := by
  cases a <;> cases b <;> cases c <;> decide

theorem le_meet_iff {a b c : Nullness} : c.le (a.meet b) ↔ c.le a ∧ c.le b := by
  cases a <;> cases b <;> cases c <;> decide

theorem le_refl (a : Nullness) : a.le a := le_iff.2 (Or.inl rfl)

theorem le_maybe (a : Nullness) : a.le maybe := le_iff.2 (Or.inr (Or.inr rfl))

theorem maybe_le_iff {a : Nullness} : maybe.le a ↔ a = maybe := by
  cases a <;> decide

theorem le_trans {a b c : Nullness} : a.le b → b.le c → a.le c := by
  cases a <;> cases b <;> cases c <;> decide

theorem le_antisymm {a b : Nullness} : a.le b → b.le a → a = b := by
  cases a <;> cases b <;> decide

/-- The states that a reference in normal form can have. -/
def IsDefinite (a : Nullness) : Prop := a = nonNull ∨ a = maybe

theorem IsDefinite.join {a b : Nullness} (ha : a.IsDefinite) (hb : b.IsDefinite) :
    (a.join b).IsDefinite := by
  rcases ha with rfl | rfl <;> rcases hb with rfl | rfl <;> simp [IsDefinite, Nullness.join]

theorem IsDefinite.meet {a b : Nullness} (ha : a.IsDefinite) (hb : b.IsDefinite) :
    (a.meet b).IsDefinite := by
  rcases ha with rfl | rfl <;> rcases hb with rfl | rfl <;> simp [IsDefinite, Nullness.meet]

theorem IsDefinite.admitsNull_iff {a : Nullness} (ha : a.IsDefinite) :
    a.admitsNull ↔ a = maybe := by
  rcases ha with rfl | rfl <;> decide

end Nullness

namespace Primitive

/-- Values of the kind `p` are values of the kind `q`, as they are or widened. -/
def Below (p q : Primitive) : Prop := p = q ∨ q = int ∧ p.fitsInt

instance (p q : Primitive) : Decidable (p.Below q) := inferInstanceAs (Decidable (_ ∨ _))

theorem Below.trans {p q r : Primitive} (hpq : p.Below q) (hqr : q.Below r) : p.Below r := by
  rcases hpq with rfl | ⟨rfl, hp⟩
  · exact hqr
  · rcases hqr with rfl | ⟨rfl, -⟩ <;> exact Or.inr ⟨rfl, hp⟩

theorem Below.antisymm {p q : Primitive} (hpq : p.Below q) (hqp : q.Below p) : p = q := by
  rcases hpq with rfl | ⟨rfl, -⟩
  · rfl
  · rcases hqp with rfl | ⟨rfl, -⟩ <;> rfl

/-- Two kinds have a common kind above them exactly when they have a join. -/
theorem join_below_iff {p q r : Primitive} :
    (∃ k, p.join q = some k ∧ k.Below r) ↔ p.Below r ∧ q.Below r := by
  cases p <;> cases q <;> cases r <;> decide

/-- Two kinds have a common kind below them exactly when they have a meet. -/
theorem below_meet_iff {p q r : Primitive} :
    (∃ k, p.meet q = some k ∧ r.Below k) ↔ r.Below p ∧ r.Below q := by
  cases p <;> cases q <;> cases r <;> decide

end Primitive

namespace Shape

variable {h : Hierarchy} {s t u : Shape}

/-- `t` is `s` or lies above it in the tree of shapes. -/
def Below (h : Hierarchy) : Shape → Shape → Prop
  | cls c, cls d => h.Below c d
  | array (.cls c) m, array (.cls d) n => m = n ∧ h.Below c d
  | array (.prim p) m, array (.prim q) n => m = n ∧ p = q
  | array _ _, cls d => d = h.root
  | _, _ => False

/-- **The tree of shapes is the one that the lineages list.** -/
theorem below_iff_mem_lineage : s.Below h t ↔ t ∈ s.lineage h := by
  rcases s with c | ⟨p | c, m⟩ <;> rcases t with d | ⟨q | d, n⟩
  case array.cls.array.cls =>
    simp only [Below, lineage, Hierarchy.below_iff_mem_lineage, List.mem_append, List.mem_map,
      List.mem_singleton, array.injEq, Element.cls.injEq, reduceCtorEq, or_false]
    constructor
    · rintro ⟨rfl, hd⟩
      exact ⟨d, hd, rfl, rfl⟩
    · rintro ⟨_, hd, rfl, rfl⟩
      exact ⟨rfl, hd⟩
  case array.prim.array.prim =>
    simp only [Below, lineage, List.mem_cons, array.injEq, Element.prim.injEq, reduceCtorEq,
      List.not_mem_nil, or_false]
    constructor
    · rintro ⟨rfl, rfl⟩
      exact ⟨rfl, rfl⟩
    · rintro ⟨rfl, rfl⟩
      exact ⟨rfl, rfl⟩
  all_goals simp [Below, lineage, Hierarchy.below_iff_mem_lineage]

theorem lineage_cls_root (h : Hierarchy) : (cls h.root).lineage h = [cls h.root] := by
  simp [lineage, h.lineage_root]

theorem isLineage (h : Hierarchy) : IsLineage (lineage h) where
  self_mem := mem_lineage_self h
  tail := by
    -- An array above which only the root class stands.
    have last : ∀ s : Shape, s.lineage h = s :: (cls h.root).lineage h →
        ∀ {x : Shape} {r : List Shape}, x :: r <:+ s.lineage h → x.lineage h = x :: r :=
      fun s hs => IsLineage.tail_of_parent hs (IsLineage.tail_of_top (lineage_cls_root h))
    rintro (c | ⟨p | c, m⟩)
    · induction c using h.induction_on with
      | root => exact IsLineage.tail_of_top (lineage_cls_root h)
      | below c p hp ih =>
        exact IsLineage.tail_of_parent (by simp [lineage, Hierarchy.lineage_of_parent hp]) ih
    · exact last _ (by simp [lineage, h.lineage_root])
    · induction c using h.induction_on with
      | root => exact last _ (by simp [lineage, h.lineage_root])
      | below c p hp ih =>
        exact IsLineage.tail_of_parent (by simp [lineage, Hierarchy.lineage_of_parent hp]) ih

theorem Below.refl (s : Shape) : s.Below h s := below_iff_mem_lineage.2 (mem_lineage_self h s)

theorem Below.trans (hst : s.Below h t) (htu : t.Below h u) : s.Below h u := by
  rw [below_iff_mem_lineage] at *
  exact (isLineage h).trans hst htu

theorem Below.antisymm (hst : s.Below h t) (hts : t.Below h s) : s = t := by
  rw [below_iff_mem_lineage] at *
  exact (isLineage h).antisymm hst hts

/-- Two shapes above one shape are comparable. -/
theorem Below.chain (hst : s.Below h t) (hsu : s.Below h u) : t.Below h u ∨ u.Below h t := by
  simp only [below_iff_mem_lineage] at *
  exact (isLineage h).chain hst hsu

/-- **The nearest common shape is the least above both.** -/
theorem commonAncestor_below_iff :
    (s.commonAncestor h t).Below h u ↔ s.Below h u ∧ t.Below h u := by
  simp only [below_iff_mem_lineage]
  exact (isLineage h).mem_nearest (root_mem_lineage h s) (root_mem_lineage h t)

/-- Only arrays without dimensions lie below one. -/
theorem Below.isDegenerate (hst : s.Below h t) (hs : s.isDegenerate = false) :
    t.isDegenerate = false := by
  rcases s with c | ⟨p | c, m⟩ <;> rcases t with d | ⟨q | d, n⟩ <;> try rfl
  case array.prim.array.prim => exact hst.1 ▸ hs
  case array.cls.array.cls => exact hst.1 ▸ hs
  all_goals exact hst.elim

theorem isAncestor_iff : s.isAncestor h t ↔ t.Below h s := by
  rw [below_iff_mem_lineage, isAncestor, List.contains_iff_mem]

end Shape

namespace Ty

variable {h : Hierarchy} {a b c : Ty}

/-- The order of types: `a` says at least as much as `b`. -/
def Below (h : Hierarchy) : Ty → Ty → Prop
  | bottom, _ => True
  | _, top => True
  | prim p, prim q => p.Below q
  | null, null => True
  | null, ref _ n => n = .maybe
  | ref s m, ref t n => s.Below h t ∧ m.le n
  | _, _ => False

theorem bottom_below (a : Ty) : bottom.Below h a := trivial

theorem below_top (a : Ty) : a.Below h top := by
  cases a <;> trivial

theorem Below.refl (a : Ty) : a.Below h a := by
  rcases a with _ | _ | p | _ | ⟨s, n⟩
  case prim => exact Or.inl rfl
  case ref => exact ⟨Shape.Below.refl s, Nullness.le_refl n⟩
  all_goals trivial

theorem Below.trans (hab : a.Below h b) (hbc : b.Below h c) : a.Below h c := by
  rcases a with _ | _ | p | _ | ⟨s, l⟩ <;> rcases b with _ | _ | q | _ | ⟨t, m⟩ <;>
    rcases c with _ | _ | r | _ | ⟨u, n⟩ <;> try trivial
  case prim.prim.prim => exact Primitive.Below.trans hab hbc
  case null.ref.ref =>
    have hm : m = .maybe := hab
    exact Nullness.maybe_le_iff.1 (hm ▸ hbc.2)
  case ref.ref.ref => exact ⟨hab.1.trans hbc.1, Nullness.le_trans hab.2 hbc.2⟩

theorem Below.antisymm (hab : a.Below h b) (hba : b.Below h a) : a = b := by
  rcases a with _ | _ | p | _ | ⟨s, m⟩ <;> rcases b with _ | _ | q | _ | ⟨t, n⟩ <;>
    try first | rfl | exact hab.elim | exact hba.elim
  case prim.prim => rw [Primitive.Below.antisymm hab hba]
  case ref.ref => rw [hab.1.antisymm hba.1, Nullness.le_antisymm hab.2 hba.2]

theorem below_bottom_iff : a.Below h bottom ↔ a = bottom :=
  ⟨fun ha => ha.antisymm (bottom_below a), fun ha => ha ▸ Below.refl a⟩

/-! ### Normal forms -/

theorem isNormal_ref_iff {s : Shape} {n : Nullness} : (ref s n).IsNormal ↔ n.IsDefinite :=
  isNormal_ref

theorem IsNormal.eq (ha : a.IsNormal) : a.normalize = a := ha

/-- A reference with a definite nullness is in normal form as it stands. -/
theorem ofShape_of_isDefinite {s : Shape} {n : Nullness} (hn : n.IsDefinite) :
    ofShape s n = ref s n :=
  (isNormal_ref_iff.2 hn).eq

theorem joinNormal_isNormal (ha : a.IsNormal) (hb : b.IsNormal) : (joinNormal h a b).IsNormal := by
  rcases a with _ | _ | p | _ | ⟨s, m⟩ <;> rcases b with _ | _ | q | _ | ⟨t, n⟩ <;>
    try first | exact ha | exact hb
  case prim.prim =>
    show ((p.join q).elim top prim).IsNormal
    cases p.join q <;> rfl
  case ref.ref =>
    exact isNormal_ref_iff.2 ((isNormal_ref_iff.1 ha).join (isNormal_ref_iff.1 hb))
  all_goals rfl

theorem meetNormal_ref_ref {s t : Shape} {m n : Nullness} :
    meetNormal h (ref s m) (ref t n) =
      if s.isAncestor h t then ofShape t (m.meet n)
      else if t.isAncestor h s then ofShape s (m.meet n)
      else if (m.meet n).admitsNull then null
      else bottom := rfl

theorem meetNormal_isNormal (ha : a.IsNormal) (hb : b.IsNormal) : (meetNormal h a b).IsNormal := by
  rcases a with _ | _ | p | _ | ⟨s, m⟩ <;> rcases b with _ | _ | q | _ | ⟨t, n⟩ <;>
    try first | exact ha | exact hb
  case prim.prim =>
    show ((p.meet q).elim bottom prim).IsNormal
    cases p.meet q <;> rfl
  case null.ref =>
    show (if n.admitsNull then null else bottom).IsNormal
    split <;> rfl
  case ref.null =>
    show (if m.admitsNull then null else bottom).IsNormal
    split <;> rfl
  case ref.ref =>
    rw [meetNormal_ref_ref]
    split_ifs
    · exact isNormal_normalize _
    · exact isNormal_normalize _
    · rfl
    · rfl
  all_goals rfl

theorem join_isNormal (h : Hierarchy) (a b : Ty) : (a.join h b).IsNormal :=
  joinNormal_isNormal (isNormal_normalize a) (isNormal_normalize b)

theorem meet_isNormal (h : Hierarchy) (a b : Ty) : (a.meet h b).IsNormal :=
  meetNormal_isNormal (isNormal_normalize a) (isNormal_normalize b)

/-! ### The join is the least upper bound -/

theorem prim_join_below_iff {p q : Primitive} :
    ((p.join q).elim top prim).Below h c ↔ (prim p).Below h c ∧ (prim q).Below h c := by
  rcases c with _ | _ | r | _ | ⟨s, n⟩
  case top => exact ⟨fun _ => ⟨trivial, trivial⟩, fun _ => below_top _⟩
  case prim =>
    show _ ↔ p.Below r ∧ q.Below r
    rw [← Primitive.join_below_iff]
    cases p.join q with
    | none => simp [Below]
    | some k => simp [Below]
  all_goals
    cases p.join q <;> exact ⟨False.elim, fun hc => hc.1.elim⟩

theorem ref_maybe_below_iff {s : Shape} {n : Nullness} :
    (ref s .maybe).Below h c ↔ null.Below h c ∧ (ref s n).Below h c := by
  rcases c with _ | _ | r | _ | ⟨t, k⟩
  case ref =>
    show s.Below h t ∧ Nullness.maybe.le k ↔ k = .maybe ∧ s.Below h t ∧ n.le k
    rw [Nullness.maybe_le_iff]
    constructor
    · rintro ⟨hs, rfl⟩
      exact ⟨rfl, hs, Nullness.le_maybe n⟩
    · rintro ⟨hk, hs, -⟩
      exact ⟨hs, hk⟩
  all_goals simp [Below]

/-- **The join of normal forms is their least upper bound.** -/
theorem joinNormal_below_iff : (joinNormal h a b).Below h c ↔ a.Below h c ∧ b.Below h c := by
  rcases a with _ | _ | p | _ | ⟨s, m⟩ <;> rcases b with _ | _ | q | _ | ⟨t, n⟩
  case prim.prim => exact prim_join_below_iff
  case null.ref => exact ref_maybe_below_iff
  case ref.null => exact ref_maybe_below_iff.trans and_comm
  case ref.ref =>
    rcases c with _ | _ | r | _ | ⟨u, k⟩
    case ref =>
      show (s.commonAncestor h t).Below h u ∧ (m.join n).le k ↔
        (s.Below h u ∧ m.le k) ∧ t.Below h u ∧ n.le k
      rw [Shape.commonAncestor_below_iff, Nullness.join_le_iff, and_and_and_comm]
    all_goals simp [joinNormal, Below]
  all_goals
    rcases c with _ | _ | r | _ | ⟨u, k⟩ <;> simp [joinNormal, Below]

/-! ### The meet is the greatest lower bound -/

theorem below_prim_meet_iff {p q : Primitive} :
    c.Below h ((p.meet q).elim bottom prim) ↔ c.Below h (prim p) ∧ c.Below h (prim q) := by
  rcases c with _ | _ | r | _ | ⟨s, n⟩
  case bottom => exact ⟨fun _ => ⟨trivial, trivial⟩, fun _ => bottom_below _⟩
  case prim =>
    show _ ↔ r.Below p ∧ r.Below q
    rw [← Primitive.below_meet_iff]
    cases p.meet q with
    | none => simp [Below]
    | some k => simp [Below]
  all_goals
    cases p.meet q <;> exact ⟨False.elim, fun hc => hc.1.elim⟩

/-- `null` lies below a reference that admits it, and nothing else lies below
both but `bottom`. -/
theorem below_null_meet_iff {s : Shape} {n : Nullness} (hn : n.IsDefinite) :
    c.Below h (if n.admitsNull then null else bottom) ↔ c.Below h null ∧ c.Below h (ref s n) := by
  rcases c with _ | _ | r | _ | ⟨t, k⟩
  case null =>
    show _ ↔ True ∧ n = .maybe
    rw [true_and, ← hn.admitsNull_iff]
    by_cases hm : n.admitsNull <;> simp [hm, Below]
  all_goals
    by_cases hm : n.admitsNull <;> simp [hm, Below]

/-- Of two shapes one above the other, the lower one stands for both. -/
theorem below_ref_meet_iff {s t : Shape} {m n : Nullness} (hst : t.Below h s) :
    c.Below h (ref t (m.meet n)) ↔ c.Below h (ref s m) ∧ c.Below h (ref t n) := by
  rcases c with _ | _ | r | _ | ⟨u, k⟩
  case null =>
    show m.meet n = .maybe ↔ m = .maybe ∧ n = .maybe
    cases m <;> cases n <;> decide
  case ref =>
    show u.Below h t ∧ k.le (m.meet n) ↔ (u.Below h s ∧ k.le m) ∧ u.Below h t ∧ k.le n
    rw [Nullness.le_meet_iff]
    constructor
    · rintro ⟨hu, hm, hn⟩
      exact ⟨⟨hu.trans hst, hm⟩, hu, hn⟩
    · rintro ⟨⟨-, hm⟩, hu, hn⟩
      exact ⟨hu, hm, hn⟩
  all_goals simp [Below]

/-- No reference lies below two that are unrelated. -/
theorem below_unrelated_meet_iff {s t : Shape} {m n : Nullness} (hm : m.IsDefinite)
    (hn : n.IsDefinite) (hst : ¬ t.Below h s) (hts : ¬ s.Below h t) :
    c.Below h (if (m.meet n).admitsNull then null else bottom) ↔
      c.Below h (ref s m) ∧ c.Below h (ref t n) := by
  rcases c with _ | _ | r | _ | ⟨u, k⟩
  case null =>
    show _ ↔ m = .maybe ∧ n = .maybe
    rcases hm with rfl | rfl <;> rcases hn with rfl | rfl <;>
      simp [Nullness.meet, Nullness.admitsNull, Below]
  case ref =>
    have hno : ¬ ((ref u k).Below h (ref s m) ∧ (ref u k).Below h (ref t n)) := by
      rintro ⟨hs, ht⟩
      exact (hs.1.chain ht.1).elim hts hst
    refine iff_of_false ?_ hno
    split <;> exact id
  all_goals split <;> simp [Below]

/-- **The meet of normal forms is their greatest lower bound.** -/
theorem below_meetNormal_iff (ha : a.IsNormal) (hb : b.IsNormal) :
    c.Below h (meetNormal h a b) ↔ c.Below h a ∧ c.Below h b := by
  rcases a with _ | _ | p | _ | ⟨s, m⟩ <;> rcases b with _ | _ | q | _ | ⟨t, n⟩
  case prim.prim => exact below_prim_meet_iff
  case null.ref => exact below_null_meet_iff (isNormal_ref_iff.1 hb)
  case ref.null => exact (below_null_meet_iff (isNormal_ref_iff.1 ha)).trans and_comm
  case ref.ref =>
    have hm := isNormal_ref_iff.1 ha
    have hn := isNormal_ref_iff.1 hb
    rw [meetNormal_ref_ref, ofShape_of_isDefinite (hm.meet hn), ofShape_of_isDefinite (hm.meet hn)]
    by_cases hst : t.Below h s
    · rw [if_pos (Shape.isAncestor_iff.2 hst)]
      exact below_ref_meet_iff hst
    · rw [if_neg fun h' => hst (Shape.isAncestor_iff.1 h')]
      by_cases hts : s.Below h t
      · rw [if_pos (Shape.isAncestor_iff.2 hts), Nullness.meet_comm, and_comm]
        exact below_ref_meet_iff hts
      · rw [if_neg fun h' => hts (Shape.isAncestor_iff.1 h')]
        exact below_unrelated_meet_iff hm hn hst hts
  all_goals
    rcases c with _ | _ | r | _ | ⟨u, k⟩ <;> simp [meetNormal, Below]

/-! ### The order as the program computes it -/

/-- **Comparing types by their join is comparing their normal forms.** -/
theorem le_iff_below : a.le h b ↔ a.normalize.Below h b.normalize := by
  have hlub := @joinNormal_below_iff h a.normalize b.normalize b.normalize
  rw [le, decide_eq_true_iff]
  constructor
  · intro he
    have hj : (a.join h b).Below h b.normalize := by
      rw [he]
      exact Below.refl _
    exact (hlub.1 hj).1
  · intro hab
    refine Below.antisymm (hlub.2 ⟨hab, Below.refl _⟩) ?_
    exact (joinNormal_below_iff.1 (Below.refl (a.join h b))).2

theorem le_refl (h : Hierarchy) (a : Ty) : a.le h a := le_iff_below.2 (Below.refl _)

theorem le_trans (hab : a.le h b) (hbc : b.le h c) : a.le h c :=
  le_iff_below.2 ((le_iff_below.1 hab).trans (le_iff_below.1 hbc))

theorem normalize_eq_of_le (hab : a.le h b) (hba : b.le h a) : a.normalize = b.normalize :=
  (le_iff_below.1 hab).antisymm (le_iff_below.1 hba)

/-- Types in normal form that lie below each other are equal. -/
theorem le_antisymm (ha : a.IsNormal) (hb : b.IsNormal) (hab : a.le h b) (hba : b.le h a) :
    a = b :=
  ha.symm.trans ((normalize_eq_of_le hab hba).trans hb)

theorem bottom_le (h : Hierarchy) (a : Ty) : bottom.le h a := le_iff_below.2 (bottom_below _)

theorem le_top (h : Hierarchy) (a : Ty) : a.le h top := le_iff_below.2 (below_top _)

/-- **The join is the least upper bound.** -/
theorem join_le_iff : (a.join h b).le h c ↔ a.le h c ∧ b.le h c := by
  rw [le_iff_below, le_iff_below, le_iff_below, (join_isNormal h a b).eq]
  exact joinNormal_below_iff

/-- **The meet is the greatest lower bound.** -/
theorem le_meet_iff : c.le h (a.meet h b) ↔ c.le h a ∧ c.le h b := by
  rw [le_iff_below, le_iff_below, le_iff_below, (meet_isNormal h a b).eq]
  exact below_meetNormal_iff (isNormal_normalize a) (isNormal_normalize b)

theorem le_join_left (h : Hierarchy) (a b : Ty) : a.le h (a.join h b) :=
  (join_le_iff.1 (le_refl h _)).1

theorem le_join_right (h : Hierarchy) (a b : Ty) : b.le h (a.join h b) :=
  (join_le_iff.1 (le_refl h _)).2

theorem meet_le_left (h : Hierarchy) (a b : Ty) : (a.meet h b).le h a :=
  (le_meet_iff.1 (le_refl h _)).1

theorem meet_le_right (h : Hierarchy) (a b : Ty) : (a.meet h b).le h b :=
  (le_meet_iff.1 (le_refl h _)).2

theorem join_le_join {a' b' : Ty} (ha : a.le h a') (hb : b.le h b') :
    (a.join h b).le h (a'.join h b') :=
  join_le_iff.2 ⟨le_trans ha (le_join_left h a' b'), le_trans hb (le_join_right h a' b')⟩

theorem meet_le_meet {a' b' : Ty} (ha : a.le h a') (hb : b.le h b') :
    (a.meet h b).le h (a'.meet h b') :=
  le_meet_iff.2 ⟨le_trans (meet_le_left h a b) ha, le_trans (meet_le_right h a b) hb⟩

/-! ### The laws of a lattice -/

/-- A type in normal form is known by what lies above it. -/
theorem eq_of_upper_bounds (ha : a.IsNormal) (hb : b.IsNormal)
    (hab : ∀ c : Ty, a.le h c ↔ b.le h c) : a = b :=
  le_antisymm ha hb ((hab b).2 (le_refl h b)) ((hab a).1 (le_refl h a))

/-- A type in normal form is known by what lies below it. -/
theorem eq_of_lower_bounds (ha : a.IsNormal) (hb : b.IsNormal)
    (hab : ∀ c : Ty, c.le h a ↔ c.le h b) : a = b :=
  le_antisymm ha hb ((hab a).1 (le_refl h a)) ((hab b).2 (le_refl h b))

theorem join_comm (h : Hierarchy) (a b : Ty) : a.join h b = b.join h a :=
  eq_of_upper_bounds (h := h) (join_isNormal h a b) (join_isNormal h b a) fun c => by
    rw [join_le_iff, join_le_iff, and_comm]

theorem join_assoc (h : Hierarchy) (a b c : Ty) :
    (a.join h b).join h c = a.join h (b.join h c) :=
  eq_of_upper_bounds (h := h) (join_isNormal h _ _) (join_isNormal h _ _) fun d => by
    rw [join_le_iff, join_le_iff, join_le_iff, join_le_iff, and_assoc]

theorem meet_comm (h : Hierarchy) (a b : Ty) : a.meet h b = b.meet h a :=
  eq_of_lower_bounds (h := h) (meet_isNormal h a b) (meet_isNormal h b a) fun c => by
    rw [le_meet_iff, le_meet_iff, and_comm]

theorem meet_assoc (h : Hierarchy) (a b c : Ty) :
    (a.meet h b).meet h c = a.meet h (b.meet h c) :=
  eq_of_lower_bounds (h := h) (meet_isNormal h _ _) (meet_isNormal h _ _) fun d => by
    rw [le_meet_iff, le_meet_iff, le_meet_iff, le_meet_iff, and_assoc]

theorem normalize_le_iff : a.normalize.le h b ↔ a.le h b := by
  rw [le_iff_below, le_iff_below, normalize_normalize]

theorem le_normalize_iff : a.le h b.normalize ↔ a.le h b := by
  rw [le_iff_below, le_iff_below, normalize_normalize]

theorem join_meet_self (h : Hierarchy) (a b : Ty) : a.join h (a.meet h b) = a.normalize :=
  eq_of_upper_bounds (h := h) (join_isNormal h _ _) (isNormal_normalize a) fun c => by
    rw [join_le_iff, normalize_le_iff]
    exact and_iff_left_of_imp fun ha => le_trans (meet_le_left h a b) ha

theorem meet_join_self (h : Hierarchy) (a b : Ty) : a.meet h (a.join h b) = a.normalize :=
  eq_of_lower_bounds (h := h) (meet_isNormal h _ _) (isNormal_normalize a) fun c => by
    rw [le_meet_iff, le_normalize_iff]
    exact and_iff_left_of_imp fun ha => le_trans ha (le_join_left h a b)

/-! ### Arrays keep their dimensions -/

theorem isProper_ref_iff {s : Shape} {n : Nullness} :
    (ref s n).IsProper ↔ s.isDegenerate = false := Iff.rfl

theorem isProper_ofShape {s : Shape} (hs : s.isDegenerate = false) (n : Nullness) :
    (ofShape s n).IsProper :=
  IsProper.normalize (isProper_ref_iff.2 hs)

theorem join_isProper (ha : a.IsProper) (hb : b.IsProper) : (a.join h b).IsProper := by
  have ha' := ha.normalize
  have hb' := hb.normalize
  show (joinNormal h a.normalize b.normalize).IsProper
  generalize a.normalize = a, b.normalize = b at ha' hb'
  rcases a with _ | _ | p | _ | ⟨s, m⟩ <;> rcases b with _ | _ | q | _ | ⟨t, n⟩ <;>
    try first | exact ha' | exact hb'
  case prim.prim =>
    show ((p.join q).elim top prim).IsProper
    cases p.join q <;> rfl
  case ref.ref =>
    have hup := (Shape.commonAncestor_below_iff.1 (Shape.Below.refl (s.commonAncestor h t))).1
    exact hup.isDegenerate ha'

theorem meet_isProper (ha : a.IsProper) (hb : b.IsProper) : (a.meet h b).IsProper := by
  have ha' := ha.normalize
  have hb' := hb.normalize
  show (meetNormal h a.normalize b.normalize).IsProper
  generalize a.normalize = a, b.normalize = b at ha' hb'
  rcases a with _ | _ | p | _ | ⟨s, m⟩ <;> rcases b with _ | _ | q | _ | ⟨t, n⟩ <;>
    try first | exact ha' | exact hb'
  case prim.prim =>
    show ((p.meet q).elim bottom prim).IsProper
    cases p.meet q <;> rfl
  case null.ref =>
    show (if n.admitsNull then null else bottom).IsProper
    split <;> rfl
  case ref.null =>
    show (if m.admitsNull then null else bottom).IsProper
    split <;> rfl
  case ref.ref =>
    rw [meetNormal_ref_ref]
    split_ifs
    · exact isProper_ofShape hb' _
    · exact isProper_ofShape ha' _
    · rfl
    · rfl

/-- What is meant by saying that the types over a hierarchy form a lattice: the
comparison that the program makes is an order, and its joins and meets are the
bounds of that order. -/
structure FormLattice (h : Hierarchy) : Prop where
  /-- Two types are compared, without a violation, by the order of their normal
  forms. -/
  compare : ∀ a b : Ty, a.IsProper → b.IsProper →
    ∃ r, a.tryLe h b = .ok r ∧ (r ↔ a.normalize.Below h b.normalize)
  refl : ∀ a : Ty, a.Below h a
  trans : ∀ a b c : Ty, a.Below h b → b.Below h c → a.Below h c
  antisymm : ∀ a b : Ty, a.Below h b → b.Below h a → a = b
  /-- Two types are joined without a violation, to a type in normal form. -/
  join : ∀ a b : Ty, a.IsProper → b.IsProper →
    a.tryJoin h b = .ok (a.join h b) ∧ (a.join h b).IsNormal ∧ (a.join h b).IsProper
  join_least : ∀ a b c : Ty, (a.join h b).Below h c.normalize ↔
    a.normalize.Below h c.normalize ∧ b.normalize.Below h c.normalize
  meet : ∀ a b : Ty, a.IsProper → b.IsProper → (a.meet h b).IsNormal ∧ (a.meet h b).IsProper
  meet_greatest : ∀ a b c : Ty, c.normalize.Below h (a.meet h b) ↔
    c.normalize.Below h a.normalize ∧ c.normalize.Below h b.normalize
  join_comm : ∀ a b : Ty, a.join h b = b.join h a
  join_assoc : ∀ a b c : Ty, (a.join h b).join h c = a.join h (b.join h c)
  join_mono : ∀ a a' b b' : Ty, a.le h a' → b.le h b' → (a.join h b).le h (a'.join h b')
  meet_comm : ∀ a b : Ty, a.meet h b = b.meet h a
  meet_assoc : ∀ a b c : Ty, (a.meet h b).meet h c = a.meet h (b.meet h c)
  meet_mono : ∀ a a' b b' : Ty, a.le h a' → b.le h b' → (a.meet h b).le h (a'.meet h b')
  join_absorbs : ∀ a b : Ty, a.join h (a.meet h b) = a.normalize
  meet_absorbs : ∀ a b : Ty, a.meet h (a.join h b) = a.normalize

/-- **The types over a hierarchy form a lattice.**  Classes that were never
declared and types that are not in normal form are included. -/
theorem types_form_lattice (h : Hierarchy) : FormLattice h where
  compare a b ha hb := ⟨a.le h b, tryLe_of_proper h ha hb, le_iff_below⟩
  refl := Below.refl
  trans _ _ _ := Below.trans
  antisymm _ _ := Below.antisymm
  join a b ha hb := ⟨tryJoin_of_proper h ha hb, join_isNormal h a b, join_isProper ha hb⟩
  join_least _ _ _ := joinNormal_below_iff
  meet a b ha hb := ⟨meet_isNormal h a b, meet_isProper ha hb⟩
  meet_greatest a b _ := below_meetNormal_iff (isNormal_normalize a) (isNormal_normalize b)
  join_comm := Ty.join_comm h
  join_assoc := Ty.join_assoc h
  join_mono _ _ _ _ := join_le_join
  meet_comm := Ty.meet_comm h
  meet_assoc := Ty.meet_assoc h
  meet_mono _ _ _ _ := meet_le_meet
  join_absorbs := join_meet_self h
  meet_absorbs := meet_join_self h

end Ty
end IrAnalysis
