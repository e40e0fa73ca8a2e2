/-
# Applying rules in any order

Several workers apply rules to the members of a program, and each of them has the draft of one
member to itself while it writes down a piece of what its rule says.  Who comes first is open.  A
piece changes the draft of its member and no other (`Assumptions.Draft.about_apply`), so in the end
the draft of a member has gathered the pieces about it, in the order in which they came, and of
that order nothing shows but which of several facts are left (`Assumptions.rules_in_any_order`).

Whether a member is stored depends on its fact too.  Where one fact at most is known of it, it is
stored in all orders or in none, with the same info and from the same rules.
-/

import IrAnalysis.Proofs.Gathering

namespace IrAnalysis

namespace Info.Draft

variable {ds : List Draft} {d : Draft}

/-- One piece after the other is told. -/
def tellAll (pieces : List Piece) (d : Draft) : Draft := pieces.foldl (fun d p => p.tell d) d

theorem Gathered.tellAll (h : Gathered ds d) (pieces : List Piece) :
    Gathered (ds ++ pieces.map (·.alone)) (Draft.tellAll pieces d) := by
  induction pieces generalizing ds d with
  | nil =>
    rw [List.map_nil, List.append_nil]
    exact h
  | cons p pieces ih =>
    have hone := h.meet (gathered_singleton p.alone)
    rw [← p.tell_eq_meet] at hone
    have hall := ih hone
    rwa [List.append_assoc, List.singleton_append] at hall

/-- Only one kind of piece is a fact. -/
theorem Piece.eq_fact {p : Piece} (h : p.alone.fact ≠ .unknown) : p = .fact p.alone.fact := by
  cases p with
  | fact t => exact congrArg Piece.fact (TypeFact.unknown_meet t).symm
  | value | pure | setPure | origin => exact absurd rfl h

end Info.Draft

namespace Assumptions

/-- A rule says a piece of something about a member. -/
structure Application where
  member : Member
  piece : Info.Draft.Piece
deriving DecidableEq

/-- The pieces about a member, in the order in which they come. -/
def pieces (x : Member) (as : List Application) : List Info.Draft.Piece :=
  (as.filter (·.member = x)).map (·.piece)

namespace Draft

/-- A worker writes a piece into the draft of its member. -/
def apply (d : Draft) (a : Application) : Draft :=
  match a.member with
  | .field f => d.updateField f a.piece.tell
  | .method m => d.updateMethod m a.piece.tell

/-- **A piece is seen at its member and nowhere else.** -/
theorem about_apply (d : Draft) (a : Application) (x : Member) :
    (d.apply a).about x = if a.member = x then a.piece.tell (d.about x) else d.about x := by
  obtain ⟨f | m, p⟩ := a
  · cases x with
    | method m => rfl
    | field g =>
      show ((d.fields.alter f _).get? g).getD .empty = _
      rw [Table.get?_alter]
      by_cases hg : g = f
      · subst hg
        rw [if_pos rfl, if_pos rfl]
        rfl
      · rw [if_neg hg, if_neg fun he => hg (Member.field.inj he).symm]
        rfl
  · cases x with
    | field f => rfl
    | method n =>
      show (((d.methods.alter m _).get? n).getD .empty).gathered = _
      rw [Table.get?_alter]
      by_cases hn : n = m
      · subst hn
        rw [if_pos rfl, if_pos rfl]
        rfl
      · rw [if_neg hn, if_neg fun he => hn (Member.method.inj he).symm]
        rfl

theorem about_foldl_apply (as : List Application) (d : Draft) (x : Member) :
    (as.foldl apply d).about x = Info.Draft.tellAll (pieces x as) (d.about x) := by
  induction as generalizing d with
  | nil => rfl
  | cons a as ih =>
    rw [List.foldl_cons, ih, about_apply, pieces, pieces, List.filter_cons]
    by_cases hx : a.member = x
    · rw [if_pos hx, if_pos (decide_eq_true hx)]
      rfl
    · rw [if_neg hx, if_neg (by simpa using hx)]

end Draft

/-- What is assumed when the rules have been applied one after the other. -/
def collect (as : List Application) : Assumptions := (as.foldl Draft.apply .empty).build

/-- The rules know of one fact at most about the member. -/
def OneFactOn (as : List Application) (x : Member) : Prop :=
  ∀ s t, ⟨x, .fact s⟩ ∈ as → ⟨x, .fact t⟩ ∈ as → s ≠ .unknown → t ≠ .unknown → s = t

variable {as bs : List Application} {x : Member}

/-- All that the rules say about the member. -/
def gatheredOn (as : List Application) (x : Member) : Info.Draft :=
  Info.Draft.tellAll (pieces x as) .empty

theorem info_collect (as : List Application) (x : Member) :
    (collect as).info x = (gatheredOn as x).build := by
  rw [collect, Draft.info_build, Draft.about_foldl_apply, gatheredOn]
  cases x <;> rfl

theorem gathered_gatheredOn (as : List Application) (x : Member) :
    Info.Draft.Gathered ((pieces x as).map (·.alone)) (gatheredOn as x) :=
  Info.Draft.gathered_nil.tellAll _

theorem OneFactOn.atMostOne (h : OneFactOn as x) :
    TypeFact.AtMostOne (((pieces x as).map (·.alone)).map (·.fact)) := by
  have hfact : ∀ s ∈ ((pieces x as).map (·.alone)).map (·.fact), s ≠ .unknown →
      (⟨x, .fact s⟩ : Application) ∈ as := by
    intro s hs hsk
    obtain ⟨d, hd, rfl⟩ := List.mem_map.1 hs
    obtain ⟨p, hp, rfl⟩ := List.mem_map.1 hd
    obtain ⟨⟨y, q⟩, ha, rfl⟩ := List.mem_map.1 hp
    obtain ⟨hmem, hy⟩ := List.mem_filter.1 ha
    obtain rfl : y = x := of_decide_eq_true hy
    rwa [← Info.Draft.Piece.eq_fact hsk]
  exact fun s hs t ht hsk htk => h s t (hfact s hs hsk) (hfact t ht htk) hsk htk

theorem pieces_perm (h : as.Perm bs) (x : Member) : (pieces x as).Perm (pieces x bs) :=
  (h.filter _).map _

/-- In every order the same values and the same freedom from side effects are gathered. -/
theorem gatheredOn_agrees (h : as.Perm bs) (x : Member) :
    (gatheredOn as x).value = (gatheredOn bs x).value ∧
      (gatheredOn as x).pure = (gatheredOn bs x).pure := by
  have hgathered := (gathered_gatheredOn as x).of_perm ((pieces_perm h x).map _)
  have hother := gathered_gatheredOn bs x
  exact ⟨hgathered.value.trans hother.value.symm, hgathered.pure.trans hother.pure.symm⟩

/-- As long as one fact is known, the same is gathered in every order. -/
theorem OneFactOn.gatheredOn_eq (hone : OneFactOn as x) (h : as.Perm bs) :
    gatheredOn as x = gatheredOn bs x := by
  have hperm : ((pieces x bs).map (·.alone)).Perm ((pieces x as).map (·.alone)) :=
    (pieces_perm h.symm x).map _
  exact (gathered_gatheredOn as x).unique hone.atMostOne ((gathered_gatheredOn bs x).of_perm hperm)

/-- **However the rules are ordered, the same values are assumed and the same members are free of
side effects**; and a member of which one fact is known at most is stored with the same info, from
the same rules, or not at all. -/
theorem rules_in_any_order (h : as.Perm bs) :
    (∀ x, ((collect as).info x).value = ((collect bs).info x).value ∧
      ((collect as).info x).pure = ((collect bs).info x).pure) ∧
    (∀ x, OneFactOn as x → (collect as).info? x = (collect bs).info? x) ∧
    ((∀ x, OneFactOn as x) → (collect as).fields.entries.Perm (collect bs).fields.entries ∧
      (collect as).methods.entries.Perm (collect bs).methods.entries) := by
  have hstored : ∀ x, OneFactOn as x → (collect as).info? x = (collect bs).info? x := by
    intro x hone
    rw [info?_eq, info?_eq, info_collect, info_collect, hone.gatheredOn_eq h]
  refine ⟨fun x => ?_, hstored, fun hone => entries_perm fun x => hstored x (hone x)⟩
  rw [info_collect, info_collect, Info.Draft.build_value, Info.Draft.build_value,
    Info.Draft.build_pure, Info.Draft.build_pure]
  exact gatheredOn_agrees h x

/-- Two rules disagree on the number in a field, which is not null, a third says that a method is
free of side effects, and a fourth says nothing of another field. -/
def fourRules : List Application :=
  [⟨.field ⟨1⟩, .value (.number 3)⟩, ⟨.field ⟨1⟩, .origin 7⟩, ⟨.field ⟨1⟩, .fact .nonNull⟩,
    ⟨.field ⟨1⟩, .value (.number 4)⟩, ⟨.field ⟨1⟩, .origin 8⟩, ⟨.method ⟨2⟩, .setPure⟩,
    ⟨.field ⟨5⟩, .origin 9⟩]

theorem rules_in_any_order_fourRules : fourRules.reverse.Perm fourRules ∧
    (∀ x, OneFactOn fourRules.reverse x) ∧
    (collect fourRules).info? (.field ⟨1⟩) = some (.of .nonNull .bottom false (.ofList [7, 8])) ∧
    (collect fourRules.reverse).info? (.field ⟨1⟩) = (collect fourRules).info? (.field ⟨1⟩) ∧
    (collect fourRules.reverse).fields.entries.Perm (collect fourRules).fields.entries := by
  have hperm : fourRules.reverse.Perm fourRules := List.reverse_perm fourRules
  have hone : ∀ x, OneFactOn fourRules.reverse x := by
    intro x s t hs ht _ _
    simp only [fourRules, List.mem_reverse, List.mem_cons, Application.mk.injEq, reduceCtorEq,
      Info.Draft.Piece.fact.injEq, List.not_mem_nil, and_false, or_false, false_or] at hs ht
    exact hs.2.trans ht.2.symm
  obtain ⟨-, hstored, hentries⟩ := rules_in_any_order hperm
  exact ⟨hperm, hone, by decide, hstored _ (hone _), (hentries hone).1⟩

/-- With three facts about a member the last one counts that stands alone. -/
example :
    let bound c : Application := ⟨.field ⟨1⟩, .fact (.upperBound (.ofClass ⟨c⟩ .maybe))⟩
    ((collect [bound 1, bound 2, bound 3]).info (.field ⟨1⟩)).fact =
        .upperBound (.ofClass ⟨3⟩ .maybe) ∧
      ((collect [bound 3, bound 2, bound 1]).info (.field ⟨1⟩)).fact =
        .upperBound (.ofClass ⟨1⟩ .maybe) := by
  decide

end Assumptions
end IrAnalysis
