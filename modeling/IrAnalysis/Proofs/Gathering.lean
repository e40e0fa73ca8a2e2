/-
# Gathering what is assumed, in any order

A draft gathers facts, values and rules of one member, and an info is what a draft says when
nothing more is to come.  Both are met part by part, but an info that says nothing forgets the
rules it came from, and a draft does not.  What is gathered from a list of drafts, in whatever
order (`Info.Draft.Gathered`), is the value, the freedom from side effects and the rules of all of
them, and the fact as long as they know of one fact alone.

Infos that say something can only say nothing together if their facts differ.  Where they do not,
no rule is lost (`Info.draft_meet`), and so infos come to the same in any order and any bracketing
(`Info.meets_any_way`).  Whether or not facts differ, drafts can be met before or after they are
built: the infos agree, and rules can only be missing in the second case (`building_meets`).
-/

import IrAnalysis.Proofs.Meeting
import IrAnalysis.Proofs.Members

namespace IrAnalysis

namespace TypeFact

variable {t a b : TypeFact} {facts : List TypeFact}

/-- One fact at most is known. -/
def AtMostOne (facts : List TypeFact) : Prop :=
  ∀ s ∈ facts, ∀ t ∈ facts, s ≠ unknown → t ≠ unknown → s = t

theorem AtMostOne.of_subset {facts' : List TypeFact} (h : AtMostOne facts)
    (hsub : ∀ t ∈ facts', t ∈ facts) : AtMostOne facts' :=
  fun s hs t ht => h s (hsub s hs) t (hsub t ht)

/-- The one fact that is known, if any is. -/
theorem AtMostOne.exists_fact (h : AtMostOne facts) :
    ∃ t, ∀ s ∈ facts, s = unknown ∨ s = t := by
  by_cases hknown : ∃ t ∈ facts, t ≠ unknown
  · obtain ⟨t, ht, htk⟩ := hknown
    exact ⟨t, fun s hs => or_iff_not_imp_left.2 fun hsk => h s hs t ht hsk htk⟩
  · refine ⟨unknown, fun s hs => Or.inl ?_⟩
    by_contra hsk
    exact hknown ⟨s, hs, hsk⟩

/-- Facts that do not differ tell nothing together only if neither tells anything. -/
theorem meet_eq_unknown (h : a = unknown ∨ b = unknown ∨ a = b) :
    a.meet b = unknown ↔ a = unknown ∧ b = unknown := by
  rcases h with rfl | rfl | rfl
  · simp [unknown_meet]
  · simp [meet_unknown]
  · simp [meet_self]

end TypeFact

theorem AbsVal.meet_eq_unknown {a b : AbsVal} :
    a.meet b = .unknown ↔ a = .unknown ∧ b = .unknown := by
  unfold meet
  cases a <;> cases b <;> simp
  all_goals split_ifs <;> simp

theorem NatSet.not_mem_empty {k : Nat} : ¬ k ∈ NatSet.empty := List.not_mem_nil

namespace Info

/-! ### Drafts -/

namespace Draft

variable {d e : Draft} {ds es : List Draft}

/-- Nothing is assumed, whatever rules were looked at. -/
def Silent (d : Draft) : Prop := d.fact = .unknown ∧ d.value = .unknown ∧ d.pure = false

theorem build_fact (d : Draft) : d.build.fact = d.fact := of_fact ..

theorem build_value (d : Draft) : d.build.value = d.value := of_value ..

theorem build_pure (d : Draft) : d.build.pure = d.pure := of_pure ..

/-- **An info comes from the rules of its draft**, unless it says nothing. -/
theorem mem_build_origins {rule : Nat} :
    rule ∈ d.build.origins ↔ rule ∈ d.origins ∧ ¬ d.Silent := by
  rw [build, of]
  split
  · next h => exact iff_of_false NatSet.not_mem_empty fun hr => hr.2 h
  · next h => exact (and_iff_left h).symm

/-- **What is gathered from drafts.**  The fact counts as long as it is one. -/
structure Gathered (ds : List Draft) (d : Draft) : Prop where
  fact : ∀ t, (∀ e ∈ ds, e.fact = .unknown ∨ e.fact = t) →
    d.fact = if t ∈ ds.map (·.fact) then t else .unknown
  value : d.value = AbsVal.meetAll (ds.map (·.value))
  pure : d.pure = ds.any (·.pure)
  origins : ∀ rule, rule ∈ d.origins ↔ ∃ e ∈ ds, rule ∈ e.origins

theorem gathered_nil : Gathered [] empty where
  fact _ _ := (if_neg List.not_mem_nil).symm
  value := rfl
  pure := rfl
  origins _ := iff_of_false NatSet.not_mem_empty (by rintro ⟨e, he, -⟩; cases he)

theorem gathered_singleton (d : Draft) : Gathered [d] d where
  fact t ht := by
    by_cases h : d.fact = t
    · simp [h]
    · simpa [Ne.symm h] using (ht d List.mem_cons_self).resolve_right h
  value := rfl
  pure := (Bool.or_false _).symm
  origins rule := by simp

/-- **What two drafts gathered is put together.** -/
theorem Gathered.meet (hd : Gathered ds d) (he : Gathered es e) :
    Gathered (ds ++ es) (d.meet e) where
  fact t ht := by
    rw [List.forall_mem_append] at ht
    show d.fact.meet e.fact = _
    rw [hd.fact t ht.1, he.fact t ht.2]
    by_cases htd : t ∈ ds.map (·.fact) <;> by_cases hte : t ∈ es.map (·.fact) <;>
      simp [htd, hte, TypeFact.meet_self, TypeFact.meet_unknown, TypeFact.unknown_meet]
  value := by
    rw [List.map_append, AbsVal.meetAll_append, ← hd.value, ← he.value]
    rfl
  pure := by
    rw [List.any_append, ← hd.pure, ← he.pure]
    rfl
  origins rule := by
    show rule ∈ d.origins.union e.origins ↔ _
    rw [NatSet.mem_union, hd.origins, he.origins]
    simp only [List.mem_append, or_and_right, exists_or]

/-- The order of the drafts does not matter. -/
theorem Gathered.of_perm (h : ds.Perm es) (hd : Gathered ds d) : Gathered es d where
  fact t ht := by
    rw [hd.fact t fun e he => ht e (h.mem_iff.1 he)]
    exact if_congr (h.map _).mem_iff rfl rfl
  value := hd.value.trans (AbsVal.meetAll_perm (h.map _))
  pure := hd.pure.trans h.any_eq
  origins rule := by
    rw [hd.origins]
    simp only [h.mem_iff]

/-- **Drafts that know of one fact gather to one draft.** -/
theorem Gathered.unique (hone : TypeFact.AtMostOne (ds.map (·.fact))) (hd : Gathered ds d)
    (he : Gathered ds e) : d = e := by
  obtain ⟨t, ht⟩ := hone.exists_fact
  have hfacts : ∀ c ∈ ds, c.fact = .unknown ∨ c.fact = t := List.forall_mem_map.1 ht
  obtain ⟨fact, value, pure, origins⟩ := d
  obtain ⟨fact', value', pure', origins'⟩ := e
  obtain rfl : fact = fact' := (hd.fact t hfacts).trans (he.fact t hfacts).symm
  obtain rfl : value = value' := hd.value.trans he.value.symm
  obtain rfl : pure = pure' := hd.pure.trans he.pure.symm
  obtain rfl : origins = origins' :=
    NatSet.ext_mem fun rule => (hd.origins rule).trans (he.origins rule).symm
  rfl

/-- A single thing that a draft is told. -/
inductive Piece
  | fact (t : TypeFact)
  | value (v : AbsVal)
  | pure (b : Bool)
  | setPure
  | origin (rule : Nat)
deriving DecidableEq

namespace Piece

/-- Tell a draft. -/
def tell : Piece → Draft → Draft
  | fact t, d => d.meetFact t
  | value v, d => d.meetValue v
  | pure b, d => d.meetPure b
  | setPure, d => d.setPure
  | origin rule, d => d.addOrigin rule

/-- A draft that was told nothing else. -/
def alone (r : Piece) : Draft := r.tell .empty

/-- **To be told something is to meet a draft that was told nothing else.** -/
theorem tell_eq_meet (r : Piece) (d : Draft) : r.tell d = d.meet r.alone := by
  obtain ⟨fact, value, pure, origins⟩ := d
  cases r <;>
    simp [tell, alone, Draft.empty, Draft.meet, meetFact, meetValue, meetPure, Draft.setPure,
      addOrigin, TypeFact.unknown_meet, TypeFact.meet_unknown, AbsVal.unknown_meet,
      AbsVal.meet_unknown, NatSet.union, NatSet.insert, NatSet.empty, NatSet.place]

end Piece

end Draft

/-! ### Infos in any bracketing -/

section Bracketing

variable {i j : Info} {is : List Info}

/-- What an info says, open to more. -/
def draft (i : Info) : Draft := ⟨i.fact, i.value, i.pure, i.origins⟩

/-- A draft that does not keep rules for nothing is what its info says. -/
theorem draft_build {d : Draft} (h : d.Silent → d.origins = .empty) : d.build.draft = d := by
  rw [Draft.build, of]
  split
  · next hs =>
    obtain ⟨fact, value, pure, origins⟩ := d
    obtain rfl : origins = .empty := h hs
    obtain ⟨rfl, rfl, rfl⟩ := hs
    rfl
  · rfl

theorem build_draft (i : Info) : i.draft.build = i := of_parts i

/-- **Infos whose facts do not differ lose no rule when they meet.** -/
theorem draft_meet (h : i.fact = .unknown ∨ j.fact = .unknown ∨ i.fact = j.fact) :
    (i.meet j).draft = i.draft.meet j.draft := by
  show (i.draft.meet j.draft).build.draft = _
  refine draft_build fun ⟨hfact, hvalue, hpure⟩ => ?_
  have hf := (TypeFact.meet_eq_unknown h).1 hfact
  have hv := AbsVal.meet_eq_unknown.1 hvalue
  have hp := Bool.or_eq_false_iff.1 hpure
  have hi : i.origins = .empty := i.origins_eq hf.1 hv.1 hp.1
  have hj : j.origins = .empty := j.origins_eq hf.2 hv.2 hp.2
  show i.origins.union j.origins = .empty
  rw [hi, hj]
  rfl

/-- Infos that are met two at a time. -/
inductive Bracketing
  | leaf (i : Info)
  | meet (left right : Bracketing)

namespace Bracketing

/-- The infos that are met, from left to right. -/
def infos : Bracketing → List Info
  | leaf i => [i]
  | meet left right => left.infos ++ right.infos

/-- What is left of them. -/
def result : Bracketing → Info
  | leaf i => i
  | meet left right => left.result.meet right.result

/-- **A bracketing of infos that know of one fact gathers all that they say.** -/
theorem gathered (b : Bracketing) (hone : TypeFact.AtMostOne (b.infos.map (·.fact))) :
    Draft.Gathered (b.infos.map draft) b.result.draft := by
  induction b with
  | leaf i => exact Draft.gathered_singleton _
  | meet left right ihl ihr =>
    obtain ⟨t, ht⟩ := hone.exists_fact
    rw [infos, List.map_append] at hone ht
    have hl := ihl (hone.of_subset fun _ => List.mem_append_left _)
    have hr := ihr (hone.of_subset fun _ => List.mem_append_right _)
    rw [List.forall_mem_append, List.forall_mem_map, List.forall_mem_map] at ht
    have hlf := hl.fact t (List.forall_mem_map.2 ht.1)
    have hrf := hr.fact t (List.forall_mem_map.2 ht.2)
    rw [infos, List.map_append, result, draft_meet]
    · exact hl.meet hr
    · show left.result.draft.fact = _ ∨ right.result.draft.fact = _ ∨
        left.result.draft.fact = right.result.draft.fact
      rw [hlf, hrf]
      split_ifs <;> simp

/-- Infos that are met one after the other. -/
def inTurn (i : Info) (is : List Info) : Bracketing :=
  is.foldl (fun b j => b.meet (.leaf j)) (.leaf i)

theorem inTurn_spec (i : Info) (is : List Info) :
    (inTurn i is).infos = i :: is ∧ (inTurn i is).result = is.foldl Info.meet i := by
  have hfold : ∀ (is : List Info) (b : Bracketing),
      (is.foldl (fun b j => b.meet (.leaf j)) b).infos = b.infos ++ is ∧
        (is.foldl (fun b j => b.meet (.leaf j)) b).result = is.foldl Info.meet b.result := by
    intro is
    induction is with
    | nil => exact fun b => ⟨(List.append_nil _).symm, rfl⟩
    | cons j is ih =>
      intro b
      obtain ⟨hinfos, hresult⟩ := ih (b.meet (.leaf j))
      refine ⟨?_, hresult⟩
      rw [List.foldl_cons, hinfos, infos, infos, List.append_assoc, List.singleton_append]
  exact hfold is (.leaf i)

end Bracketing

/-- **What infos say together that know of one fact.** -/
structure SaidTogether (is : List Info) (i : Info) : Prop where
  /-- The fact is the one that they know of. -/
  fact : ∀ j ∈ is, j.fact ≠ .unknown → i.fact = j.fact
  fact_unknown : (∀ j ∈ is, j.fact = .unknown) → i.fact = .unknown
  value_unknown : (∀ j ∈ is, j.value = .unknown) → i.value = .unknown
  /-- The value is the one that they know of. -/
  value : ∀ j ∈ is, j.value ≠ .unknown →
    (∀ k ∈ is, k.value = .unknown ∨ k.value = j.value) → i.value = j.value
  /-- Values that differ leave nothing. -/
  value_bottom : ∀ j ∈ is, ∀ k ∈ is, j.value ≠ .unknown → k.value ≠ .unknown →
    j.value ≠ k.value → i.value = .bottom
  pure : i.pure = is.any (·.pure)
  origins : ∀ rule, rule ∈ i.origins ↔ ∃ j ∈ is, rule ∈ j.origins

theorem saidTogether_of_gathered (hone : TypeFact.AtMostOne (is.map (·.fact)))
    (h : Draft.Gathered (is.map draft) i.draft) : SaidTogether is i := by
  have hfact : ∀ t, (∀ j ∈ is, j.fact = .unknown ∨ j.fact = t) →
      i.fact = if t ∈ is.map (·.fact) then t else .unknown := by
    intro t ht
    have hi := h.fact t (List.forall_mem_map.2 ht)
    rwa [List.map_map] at hi
  have hvalue : i.value = AbsVal.meetAll (is.map (·.value)) := by
    have hi := h.value
    rwa [List.map_map] at hi
  refine ⟨fun j hj hjk => ?_, fun hall => ?_, fun hall => ?_, fun j hj _ hall => ?_,
    fun j hj k hk hjk hkk hne => ?_, ?_, fun rule => ?_⟩
  · refine (hfact j.fact fun k hk => or_iff_not_imp_left.2 fun hkk => ?_).trans
      (if_pos (List.mem_map_of_mem hj))
    exact hone _ (List.mem_map_of_mem hk) _ (List.mem_map_of_mem hj) hkk hjk
  · rw [hfact .unknown fun j hj => Or.inl (hall j hj), ite_self]
  · rw [hvalue, AbsVal.meetAll_of_one (v := .unknown), ite_self]
    exact List.forall_mem_map.2 fun j hj => Or.inl (hall j hj)
  · rw [hvalue, AbsVal.meetAll_of_one (List.forall_mem_map.2 hall)]
    exact if_pos (List.mem_map_of_mem hj)
  · rw [hvalue]
    exact AbsVal.meetAll_of_conflict (List.mem_map_of_mem hj) (List.mem_map_of_mem hk) hjk hkk hne
  · have hi := h.pure
    rwa [List.any_map] at hi
  · refine (h.origins rule).trans ?_
    simp only [List.mem_map, exists_exists_and_eq_and]
    exact Iff.rfl

theorem gathered_meetAll (hone : TypeFact.AtMostOne (is.map (·.fact))) :
    Draft.Gathered (is.map draft) (meetAll is).draft := by
  cases is with
  | nil => exact Draft.gathered_nil
  | cons i is =>
    obtain ⟨hinfos, hresult⟩ := Bracketing.inTurn_spec i is
    have hgathered := (Bracketing.inTurn i is).gathered (hinfos ▸ hone)
    rw [hinfos, hresult] at hgathered
    rwa [meetAll, List.foldl_cons, empty_meet]

/-- **Infos that know of one fact come to the same in any order and any bracketing**, and all that
they say and all rules that they come from are kept. -/
theorem meets_any_way (hone : TypeFact.AtMostOne (is.map (·.fact))) :
    SaidTogether is (meetAll is) ∧
      ∀ b : Bracketing, b.infos.Perm is → b.result = meetAll is := by
  have hall := gathered_meetAll hone
  refine ⟨saidTogether_of_gathered hone hall, fun b hb => ?_⟩
  have hb_one : TypeFact.AtMostOne (b.infos.map (·.fact)) :=
    hone.of_subset fun t => (hb.map _).mem_iff.1
  have hgathered := (b.gathered hb_one).of_perm (hb.map draft)
  have hdraft : b.result.draft = (meetAll is).draft := by
    refine hgathered.unique ?_ hall
    rwa [List.map_map]
  rw [← build_draft b.result, hdraft, build_draft]

/-- What four rules say of a field: it is not null, it holds a number, it is read without side
effects, and nothing at all. -/
def fourInfos : List Info :=
  [.of .nonNull .unknown false (.ofList [1]), .of .unknown (.number 4) false (.ofList [2]),
    .of .unknown .unknown true (.ofList [3]), .of .unknown .unknown false (.ofList [5])]

/-- The rule that says nothing leaves no trace. -/
theorem meets_any_way_fourInfos : TypeFact.AtMostOne (fourInfos.map (·.fact)) ∧
    ∀ b : Bracketing, b.infos.Perm fourInfos →
      b.result = .of .nonNull (.number 4) true (.ofList [1, 2, 3]) := by
  have hone : TypeFact.AtMostOne (fourInfos.map (·.fact)) := by
    unfold TypeFact.AtMostOne
    decide
  exact ⟨hone, fun b hb => ((meets_any_way hone).2 b hb).trans (by decide)⟩

/-- With three facts the bracketing shows: the one that stands alone is left. -/
example :
    let bound c := of (.upperBound (.ofClass ⟨c⟩ .maybe)) .unknown false .empty
    (Bracketing.meet (.meet (.leaf (bound 1)) (.leaf (bound 2))) (.leaf (bound 3))).result =
        bound 3 ∧
      (Bracketing.meet (.leaf (bound 1)) (.meet (.leaf (bound 2)) (.leaf (bound 3)))).result =
        bound 1 := by
  decide

end Bracketing

/-! ### Building before or after -/

/-- `i` says what `j` says, and comes from no other rules. -/
structure Within (i j : Info) : Prop where
  agrees : j.agrees i = true
  origins : ∀ rule, rule ∈ i.origins → rule ∈ j.origins

namespace Draft

theorem meet_empty (d : Draft) : d.meet empty = d := by
  obtain ⟨fact, value, pure, origins⟩ := d
  show (⟨_, _, _, _⟩ : Draft) = _
  congr 1
  · exact TypeFact.meet_unknown fact
  · exact AbsVal.meet_unknown value
  · exact Bool.or_false pure

/-- **Drafts may be built before they are met.**  What they say together is the same, but a draft
that says nothing has then forgotten its rules. -/
theorem within_build_meet (d e : Draft) : (d.build.meet e.build).Within (d.meet e).build where
  agrees := by
    simp only [agrees, meet_fact, meet_value, meet_pure, build_fact, build_value, build_pure,
      Draft.meet, decide_true, Bool.and_self]
  origins rule hr := by
    obtain ⟨hmem, hsays⟩ := (mem_build_origins (d := d.build.draft.meet e.build.draft)).1 hr
    refine mem_build_origins.2 ⟨NatSet.mem_union.2 ?_, fun hs => hsays ?_⟩
    · exact (NatSet.mem_union.1 hmem).imp (fun h => (mem_build_origins.1 h).1)
        fun h => (mem_build_origins.1 h).1
    · obtain ⟨hfact, hvalue, hpure⟩ := hs
      refine ⟨?_, ?_, ?_⟩
      · exact (congrArg₂ TypeFact.meet d.build_fact e.build_fact).trans hfact
      · exact (congrArg₂ AbsVal.meet d.build_value e.build_value).trans hvalue
      · exact (congrArg₂ or d.build_pure e.build_pure).trans hpure

/-- The calls that a draft has seen. -/
inductive Calls
  | start
  | tell (before : Calls) (r : Piece)
  /-- It met a draft with calls of its own. -/
  | meet (before other : Calls)

/-- What they leave. -/
def Calls.draft : Calls → Draft
  | start => .empty
  | tell before r => r.tell before.draft
  | meet before other => before.draft.meet other.draft

end Draft

end Info

namespace MethodInfo.Draft

/-- An untouched draft adds nothing to another. -/
theorem gathered_meet (d e : Draft) : (d.meet e).gathered = d.gathered.meet e.gathered := by
  obtain ⟨_ | other⟩ := e
  · exact (Info.Draft.meet_empty _).symm
  · rfl

/-- The calls that the draft of a method has seen. -/
inductive Calls
  | start
  /-- Something was gathered that holds at every call of the method. -/
  | update (before : Calls) (r : Info.Draft.Piece)
  /-- A draft of such things was met. -/
  | updateMeet (before : Calls) (other : Info.Draft.Calls)
  /-- It was touched and nothing more. -/
  | touch (before : Calls)
  | meet (before other : Calls)

/-- What they leave. -/
def Calls.draft : Calls → Draft
  | start => .empty
  | update before r => before.draft.update r.tell
  | updateMeet before other => before.draft.update (·.meet other.draft)
  | touch before => before.draft.update id
  | meet before other => before.draft.meet other.draft

end MethodInfo.Draft

/-- **To meet drafts and build the result, or to build them and meet the infos**, comes to the same,
for members and for methods, whether or not they were touched; and rules are only ever missing in
the second way. -/
theorem building_meets (p q : Info.Draft.Calls) (m n : MethodInfo.Draft.Calls) :
    (p.draft.build.meet q.draft.build).Within (p.meet q).draft.build ∧
      (m.meet n).draft.build.agrees (m.draft.build.meet n.draft.build) = true ∧
      (m.draft.build.meet n.draft.build).unconditional.Within
        (m.meet n).draft.build.unconditional := by
  have hmethod : (m.draft.build.meet n.draft.build).unconditional.Within
      (m.meet n).draft.build.unconditional := by
    rw [MethodInfo.Draft.build_unconditional, MethodInfo.Draft.Calls.draft,
      MethodInfo.Draft.gathered_meet, MethodInfo.meet, MethodInfo.Draft.build_unconditional,
      MethodInfo.Draft.build_unconditional]
    exact Info.Draft.within_build_meet _ _
  exact ⟨Info.Draft.within_build_meet _ _, hmethod.agrees, hmethod⟩

/-- A rule that said nothing is remembered by a draft alone. -/
example :
    let p := Info.Draft.Calls.start.tell (.origin 1)
    let q := (Info.Draft.Calls.start.tell (.value .null)).tell (.origin 2)
    (p.meet q).draft.build.origins = .ofList [1, 2] ∧
      (p.draft.build.meet q.draft.build).origins = .ofList [2] := by
  decide

end IrAnalysis
