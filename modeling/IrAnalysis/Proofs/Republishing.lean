/-
# Publishing in steps

Two lenses that rest on each other are published one after the other, or the upper one at once.
Either way every member, every bound and every value read from a field gets the same new name,
because look-ups compose (`Lens.Run.Apart.names_comp`) and renamings do (`Info.renamed_renamed`).

The infos under one name are met in other groups, though.  What the first step lets fall together
is met under the old names, where facts are still told apart that the second step makes equal, and
what says nothing is dropped on the way.  As long as the first step keeps the members apart it only
renames the entries (`Assumptions.StaysApart.listed_perm`), and the groups of the second step are
those of the direct one.  If no group knows of two facts, every group has something to say
(`Info.not_isEmpty_meetAll`) and the order in which its members are visited does not show
(`Info.meetAll_perm`), so the two ways end in the same collection
(`Program.publishing_in_steps`).
-/

import IrAnalysis.Proofs.Ancestors
import IrAnalysis.Proofs.Gathering
import IrAnalysis.Proofs.Publishing
import IrAnalysis.Proofs.Renaming

namespace IrAnalysis

variable {f f' : ClassId → ClassId} {g g' : FieldId → FieldId}

/-! ### Renaming twice -/

namespace TypeFact

variable {fact : TypeFact}

theorem rename_rename (f f' : ClassId → ClassId) (fact : TypeFact) :
    (fact.rename f).rename f' = fact.rename (f' ∘ f) := by
  cases fact with
  | unknown | nonNull => rfl
  | upperBound t => exact congrArg upperBound (Ty.rename_rename f f' t)

theorem rename_eq_unknown : fact.rename f = unknown ↔ fact = unknown := by
  cases fact <;> simp [rename]

/-- A bound that can be written once can be written again. -/
theorem isFlatBound_rename (hflat : fact.isFlatBound = false) :
    (fact.rename f).isFlatBound = false := by
  rcases fact with _ | _ | (_ | _ | _ | _ | ⟨c | ⟨p | c, _ | dims⟩, n⟩)
  case upperBound.ref.array.cls.zero => exact absurd hflat (by simp [isFlatBound])
  case upperBound.ref.cls | upperBound.ref.array.cls.succ => cases n <;> rfl
  all_goals exact hflat

end TypeFact

namespace AbsVal

theorem rename_rename (g g' : FieldId → FieldId) (v : AbsVal) :
    (v.rename g).rename g' = v.rename (g' ∘ g) := by
  cases v <;> rfl

theorem rename_eq_unknown {v : AbsVal} : v.rename g = unknown ↔ v = unknown := by
  cases v <;> simp [rename]

end AbsVal

namespace Info

variable {i : Info} {is js : List Info}

theorem renamed_fact : (i.renamed f g).fact = i.fact.rename f := of_fact ..

/-- New names neither add nor take away what an info says. -/
theorem isEmpty_renamed : (i.renamed f g).isEmpty = i.isEmpty := by
  rw [Bool.eq_iff_iff, isEmpty_iff, isEmpty_iff, renamed, of_fact, of_value, of_pure,
    TypeFact.rename_eq_unknown, AbsVal.rename_eq_unknown]

theorem renamed_origins : (i.renamed f g).origins = i.origins := by
  rw [renamed, of]
  split
  · next h =>
    rw [TypeFact.rename_eq_unknown, AbsVal.rename_eq_unknown] at h
    exact (i.origins_eq h.1 h.2.1 h.2.2).symm
  · rfl

/-- **Renaming step by step is renaming once**, for all parts of an info. -/
theorem renamed_renamed (i : Info) :
    (i.renamed f g).renamed f' g' = i.renamed (f' ∘ f) (g' ∘ g) := by
  rw [renamed, renamed_origins, renamed, of_fact, of_value, of_pure, TypeFact.rename_rename,
    AbsVal.rename_rename]
  rfl

/-- **Infos that know of one fact come to the same in any order.** -/
theorem meetAll_perm (h : is.Perm js) (hone : TypeFact.AtMostOne (is.map (·.fact))) :
    meetAll is = meetAll js := by
  have hone' : TypeFact.AtMostOne (js.map (·.fact)) :=
    hone.of_subset fun t => (h.map _).mem_iff.2
  have hdraft : (meetAll is).draft = (meetAll js).draft := by
    refine ((gathered_meetAll hone).of_perm (h.map draft)).unique ?_ (gathered_meetAll hone')
    rwa [List.map_map]
  rw [← build_draft (meetAll is), hdraft, build_draft]

/-- **Infos that know of one fact say something together if one of them does.** -/
theorem not_isEmpty_meetAll (hone : TypeFact.AtMostOne (is.map (·.fact))) (hi : i ∈ is)
    (hsome : i.isEmpty = false) : (meetAll is).isEmpty = false := by
  have hsaid := saidTogether_of_gathered hone (gathered_meetAll hone)
  rw [Bool.eq_false_iff] at hsome ⊢
  refine fun hempty => hsome ?_
  rw [isEmpty_iff] at hempty ⊢
  obtain ⟨hfact, hvalue, hpure⟩ := hempty
  refine ⟨?_, ?_, ?_⟩
  · by_contra hknown
    exact hknown ((hsaid.fact i hi hknown).symm.trans hfact)
  · have hmeet : (AbsVal.meetAll (is.map (·.value))).meet i.value = _ :=
      AbsVal.meetAll_meet_of_mem (List.mem_map_of_mem hi)
    rw [← (merged_meetAll is).value, hvalue] at hmeet
    exact hmeet
  · rw [hsaid.pure, List.any_eq_false] at hpure
    exact Bool.eq_false_iff.2 (hpure i hi)

end Info

/-! ### The names that a lens has for everything -/

/-- New names for classes, fields and methods. -/
structure Names where
  types : ClassId → ClassId
  fields : FieldId → FieldId
  methods : MethodId → MethodId

namespace Names

variable {n n' : Names}

/-- First by `n` and then by `n'`. -/
def comp (n' n : Names) : Names where
  types := n'.types ∘ n.types
  fields := n'.fields ∘ n.fields
  methods := n'.methods ∘ n.methods

def member (n : Names) : Member → Member
  | .field f => .field (n.fields f)
  | .method m => .method (n.methods m)

def info (n : Names) (i : Info) : Info := i.renamed n.types n.fields

theorem member_comp (x : Member) : (n'.comp n).member x = n'.member (n.member x) := by
  cases x <;> rfl

theorem info_comp (i : Info) : (n'.comp n).info i = n'.info (n.info i) := by
  rw [info, info, info, Info.renamed_renamed]
  rfl

end Names

namespace Lens

variable {run : Run} {lenses : List Lens} {lens since a b c : Lens} {n : Names}

/-- All that a lens has new names for. -/
def names (lens : Lens) (since : Option Lens) : Checked Names := do
  return ⟨← lens.types since, ← lens.fields since, ← lens.methods since⟩

theorem names_eq_ok_iff : lens.names (some since) = .ok n ↔
    lens.types (some since) = .ok n.types ∧ lens.fields (some since) = .ok n.fields ∧
      lens.methods (some since) = .ok n.methods := by
  obtain ⟨f, g, m⟩ := n
  rw [names]
  cases lens.types (some since) <;> cases lens.fields (some since) <;>
    cases lens.methods (some since) <;> simp [bind, Except.bind, pure, Except.pure]

theorem exists_names (hrests : lens.restsOn since = true) :
    ∃ n, lens.names (some since) = .ok n := by
  obtain ⟨f, hf⟩ := types_of_restsOn hrests
  obtain ⟨g, hg⟩ := fields_of_restsOn hrests
  obtain ⟨m, hm⟩ := methods_of_restsOn hrests
  exact ⟨⟨f, g, m⟩, names_eq_ok_iff.2 ⟨hf, hg, hm⟩⟩

/-- **All look-ups compose.** -/
theorem Run.Apart.names_comp (h : Run.Apart run lenses) (ha : a ∈ lenses) (hb : b ∈ lenses)
    (hc : c ∈ lenses) (hba : b.restsOn a = true) (hcb : c.restsOn b = true) :
    ∃ n n', b.names (some a) = .ok n ∧ c.names (some b) = .ok n' ∧
      c.names (some a) = .ok (n'.comp n) := by
  have htypes : Composes Lens.types a b c :=
    h.composes ha hb hc hba hcb fun _ hl => Layer.renameType_of_untouched hl
  have hfields : Composes Lens.fields a b c :=
    h.composes ha hb hc hba hcb fun _ hl => Layer.renameField_of_untouched hl
  have hmethods : Composes Lens.methods a b c :=
    h.composes ha hb hc hba hcb fun _ hl => Layer.renameMethod_of_untouched hl
  obtain ⟨f, f', hf, hf', hff⟩ := htypes.steps
  obtain ⟨g, g', hg, hg', hgg⟩ := hfields.steps
  obtain ⟨m, m', hm, hm', hmm⟩ := hmethods.steps
  exact ⟨⟨f, g, m⟩, ⟨f', g', m'⟩, names_eq_ok_iff.2 ⟨hf, hg, hm⟩,
    names_eq_ok_iff.2 ⟨hf', hg', hm'⟩, names_eq_ok_iff.2 ⟨hff, hgg, hmm⟩⟩

end Lens

/-! ### Collections as lists of members -/

namespace Assumptions

variable {a a' r r' s s' : Assumptions} {lens since : Lens} {n n' : Names} {x : Member} {i : Info}

/-- The members that are stored with their infos, the fields first. -/
def listed (a : Assumptions) : List (Member × Info) :=
  a.fields.entries.map (fun e => (.field e.1, e.2)) ++
    a.methods.entries.map fun e => (.method e.1, e.2.unconditional)

/-- The same is stored of the same members, by the same rules, in whatever order. -/
def Same (a b : Assumptions) : Prop := ∀ x, a.info? x = b.info? x

/-- No two members that are stored get one name. -/
def StaysApart (a : Assumptions) (lens since : Lens) : Prop :=
  ∀ n, lens.names (some since) = .ok n →
    ∀ e ∈ a.listed, ∀ e' ∈ a.listed, n.member e.1 = n.member e'.1 → e.1 = e'.1

/-- Members that get one name know of one fact at most, as it is written then. -/
def AgreesUnder (a : Assumptions) (lens since : Lens) : Prop :=
  ∀ n, lens.names (some since) = .ok n →
    ∀ e ∈ a.listed, ∀ e' ∈ a.listed, n.member e.1 = n.member e'.1 →
      e.2.fact ≠ .unknown → e'.2.fact ≠ .unknown →
        e.2.fact.rename n.types = e'.2.fact.rename n.types

/-- The infos, in new names, of the members that are called `x` then. -/
def visited (a : Assumptions) (n : Names) (x : Member) : List Info :=
  under n.member n.info a.listed x

theorem mem_listed : (x, i) ∈ a.listed ↔ a.info? x = some i := by
  rw [listed, List.mem_append, List.mem_map, List.mem_map]
  cases x with
  | field k =>
    rw [info?, ← Table.mem_entries]
    simp
  | method k =>
    rw [info?, Option.map_eq_some_iff]
    simp only [← Table.mem_entries]
    simp

theorem nodup_listed (a : Assumptions) : a.listed.Nodup := by
  rw [listed, List.nodup_append]
  refine ⟨(List.Nodup.of_map _ a.fields.keys_nodup).map ?_,
    (List.Nodup.of_map _ a.methods.keys_nodup).map ?_, ?_⟩
  · rintro ⟨k, i⟩ ⟨k', i'⟩ ⟨⟩
    rfl
  · rintro ⟨k, ⟨i⟩⟩ ⟨k', ⟨i'⟩⟩ ⟨⟩
    rfl
  · rintro _ hfield _ hmethod rfl
    obtain ⟨e, -, he⟩ := List.mem_map.1 hfield
    obtain ⟨e', -, he'⟩ := List.mem_map.1 hmethod
    exact nomatch he.trans he'.symm

theorem writable_iff : a.Writable ↔ ∀ e ∈ a.listed, e.2.fact.isFlatBound = false := by
  rw [listed, List.forall_mem_append, List.forall_mem_map, List.forall_mem_map]
  rfl

theorem mem_visited : i ∈ a.visited n x ↔ ∃ e ∈ a.listed, n.member e.1 = x ∧ n.info e.2 = i := by
  simp only [visited, under, List.mem_map, List.mem_filter, decide_eq_true_iff, and_assoc]

theorem visited_field (k : FieldId) : a.visited n (.field k) =
    under n.fields (·.renamed n.types n.fields) a.fields.entries k := by
  simp [visited, under, listed, Names.member, Names.info, List.filter_map, Function.comp_def]

theorem visited_method (k : MethodId) : a.visited n (.method k) =
    under n.methods (·.unconditional.renamed n.types n.fields) a.methods.entries k := by
  simp [visited, under, listed, Names.member, Names.info, List.filter_map, Function.comp_def]

/-- **What may be assumed of a member after a move.** -/
theorem info_rewrite (hn : lens.names (some since) = .ok n) (hr : a.rewrite lens since = .ok r)
    (x : Member) : r.info x = Info.meetAll (a.visited n x) := by
  obtain ⟨hf, hg, hm⟩ := Lens.names_eq_ok_iff.1 hn
  have hmerged := mergedFrom_of_rewrite hf hg hm (.refl _) (.refl _) hr
  cases x with
  | field k =>
    rw [visited_field]
    exact (hmerged.fields k).eq_meetAll
  | method k =>
    rw [visited_method]
    exact (hmerged.methods k).eq_meetAll

/-- What is visited under one name knows of one fact. -/
theorem AgreesUnder.atMostOne (h : a.AgreesUnder lens since)
    (hn : lens.names (some since) = .ok n) (x : Member) :
    TypeFact.AtMostOne ((a.visited n x).map (·.fact)) := by
  intro t ht t' ht' hk hk'
  obtain ⟨_, hj, rfl⟩ := List.mem_map.1 ht
  obtain ⟨_, hj', rfl⟩ := List.mem_map.1 ht'
  obtain ⟨e, he, hx, rfl⟩ := mem_visited.1 hj
  obtain ⟨e', he', hx', rfl⟩ := mem_visited.1 hj'
  rw [Names.info, Info.renamed_fact] at hk hk' ⊢
  rw [Names.info, Info.renamed_fact]
  exact h n hn e he e' he' (hx.trans hx'.symm) (mt TypeFact.rename_eq_unknown.2 hk)
    (mt TypeFact.rename_eq_unknown.2 hk')

/-- What is stored still says something in new names. -/
theorem not_isEmpty_info {e : Member × Info} (he : e ∈ a.listed) : (n.info e.2).isEmpty = false :=
  Info.isEmpty_renamed.trans (not_isEmpty_of_info? (mem_listed.1 he))

/-- **No member is lost in a move**, and no rule. -/
theorem AgreesUnder.kept (h : a.AgreesUnder lens since) (hn : lens.names (some since) = .ok n)
    (hr : a.rewrite lens since = .ok r) {e : Member × Info} (he : e ∈ a.listed) :
    ∃ i, r.info? (n.member e.1) = some i ∧ ∀ rule ∈ e.2.origins, rule ∈ i.origins := by
  have hone := h.atMostOne hn (n.member e.1)
  have hmem : n.info e.2 ∈ a.visited n (n.member e.1) := mem_visited.2 ⟨e, he, rfl, rfl⟩
  have hsaid := Info.saidTogether_of_gathered hone (Info.gathered_meetAll hone)
  refine ⟨Info.meetAll (a.visited n (n.member e.1)), ?_, fun rule hrule => ?_⟩
  · rw [info?_eq, info_rewrite hn hr, Info.not_isEmpty_meetAll hone hmem (not_isEmpty_info he)]
    rfl
  · rw [← Info.renamed_origins] at hrule
    exact (hsaid.origins rule).2 ⟨n.info e.2, hmem, hrule⟩

/-! ### The order of the entries -/

theorem same_of_info (h : ∀ x, a.info x = a'.info x) : a.Same a' := fun x => by
  rw [info?_eq, info?_eq, h]

namespace Same

variable (h : a.Same a')
include h

theorem symm : a'.Same a := fun x => (h x).symm

theorem listed_perm : a.listed.Perm a'.listed := by
  refine (List.perm_ext_iff_of_nodup a.nodup_listed a'.nodup_listed).2 ?_
  rintro ⟨x, i⟩
  rw [mem_listed, mem_listed, h x]

theorem visited_perm (n : Names) (x : Member) : (a.visited n x).Perm (a'.visited n x) :=
  under_perm h.listed_perm x

theorem writable_iff : a.Writable ↔ a'.Writable := by
  simp only [Assumptions.writable_iff, h.listed_perm.mem_iff]

theorem agreesUnder (hagree : a.AgreesUnder lens since) : a'.AgreesUnder lens since := by
  simpa only [AgreesUnder, h.listed_perm.mem_iff] using hagree

/-- **The order in which the entries are listed does not show in the move.** -/
theorem rewrite (hn : lens.names (some since) = .ok n) (hagree : a.AgreesUnder lens since)
    (hr : a.rewrite lens since = .ok r) (hr' : a'.rewrite lens since = .ok r') : r.Same r' := by
  refine same_of_info fun x => ?_
  rw [info_rewrite hn hr, info_rewrite hn hr']
  exact Info.meetAll_perm (h.visited_perm n x) (hagree.atMostOne hn x)

end Same

/-! ### Moving twice -/

namespace StaysApart

variable (h : a.StaysApart lens since) (hn : lens.names (some since) = .ok n)
include h hn

theorem eq {e e' : Member × Info} (he : e ∈ a.listed) (he' : e' ∈ a.listed)
    (hname : n.member e.1 = n.member e'.1) : e = e' := by
  have hkey := h n hn e he e' he' hname
  refine Prod.ext hkey (Option.some.inj ?_)
  rw [← mem_listed.1 he, ← mem_listed.1 he', hkey]

/-- Entries that stay apart are visited one by one. -/
theorem visited_eq {e : Member × Info} (he : e ∈ a.listed) :
    a.visited n (n.member e.1) = [n.info e.2] := by
  have hperm : (a.listed.filter fun d => n.member d.1 = n.member e.1).Perm [e] := by
    refine (List.perm_ext_iff_of_nodup (a.nodup_listed.filter _) (List.nodup_singleton e)).2 ?_
    intro d
    rw [List.mem_filter, decide_eq_true_iff, List.mem_singleton]
    constructor
    · rintro ⟨hd, hname⟩
      exact h.eq hn hd he hname
    · rintro rfl
      exact ⟨he, rfl⟩
  rw [visited, under, List.perm_singleton.1 hperm]
  rfl

variable (hr : a.rewrite lens since = .ok r)
include hr

theorem info?_rewrite {e : Member × Info} (he : e ∈ a.listed) :
    r.info? (n.member e.1) = some (n.info e.2) := by
  rw [info?_eq, info_rewrite hn hr, h.visited_eq hn he, Info.meetAll, List.foldl_cons,
    Info.empty_meet, List.foldl_nil, not_isEmpty_info he]
  rfl

/-- **A move that keeps all members apart gives every entry its new names** and no more. -/
theorem listed_perm : r.listed.Perm (a.listed.map fun e => (n.member e.1, n.info e.2)) := by
  have hnodup := a.nodup_listed.map_on fun e he e' he'
    (heq : (n.member e.1, n.info e.2) = (n.member e'.1, n.info e'.2)) =>
      h.eq hn he he' (Prod.mk.inj heq).1
  refine (List.perm_ext_iff_of_nodup r.nodup_listed hnodup).2 ?_
  rintro ⟨y, j⟩
  rw [mem_listed, List.mem_map]
  constructor
  · intro hj
    -- Something is stored under `y`, so some entry was visited there.
    cases hvisited : a.visited n y with
    | nil =>
      rw [info?_eq, info_rewrite hn hr, hvisited] at hj
      exact nomatch hj
    | cons k ks =>
      obtain ⟨e, he, rfl, -⟩ := mem_visited.1 (hvisited ▸ List.mem_cons_self)
      have hstored := h.info?_rewrite hn hr he
      exact ⟨e, he, Prod.ext rfl (Option.some.inj (hstored.symm.trans hj))⟩
  · rintro ⟨e, he, heq⟩
    rw [← (Prod.mk.inj heq).1, ← (Prod.mk.inj heq).2]
    exact h.info?_rewrite hn hr he

/-- What could be written once can be written again. -/
theorem writable (hw : a.Writable) : r.Writable := by
  rw [writable_iff] at hw ⊢
  intro e he
  obtain ⟨d, hd, rfl⟩ := List.mem_map.1 ((h.listed_perm hn hr).mem_iff.1 he)
  rw [Names.info, Info.renamed_fact]
  exact TypeFact.isFlatBound_rename (hw d hd)

/-- What is visited in the second step is what is visited when both are made at once. -/
theorem visited_perm (n' : Names) (x : Member) :
    (r.visited n' x).Perm (a.visited (n'.comp n) x) := by
  have hstep : a.visited (n'.comp n) x =
      under n'.member n'.info (a.listed.map fun e => (n.member e.1, n.info e.2)) x := by
    simp only [visited, under, List.filter_map, List.map_map, Function.comp_def, Names.info_comp,
      Names.member_comp]
  rw [hstep]
  exact under_perm (h.listed_perm hn hr) x

/-- **To move twice is to move once**, in whatever order the entries are listed. -/
theorem rewrite_rewrite {c : Lens} (hn' : c.names (some lens) = .ok n')
    (hc : c.names (some since) = .ok (n'.comp n)) (hagree : a.AgreesUnder c since)
    (ha : a.Same a') (hrr : r.Same r') (hs : r'.rewrite c lens = .ok s)
    (hs' : a'.rewrite c since = .ok s') : s.Same s' := by
  refine same_of_info fun x => ?_
  have hone := hagree.atMostOne hc x
  have hperm := (h.visited_perm hn hr n' x).symm.trans (hrr.visited_perm n' x)
  calc s.info x
      = Info.meetAll (r'.visited n' x) := info_rewrite hn' hs x
    _ = Info.meetAll (a.visited (n'.comp n) x) := (Info.meetAll_perm hperm hone).symm
    _ = Info.meetAll (a'.visited (n'.comp n) x) := Info.meetAll_perm (ha.visited_perm _ x) hone
    _ = s'.info x := (info_rewrite hc hs' x).symm

end StaysApart

end Assumptions

/-! ### Publishing -/

namespace Program

variable {run : Lens.Run} {lenses : List Lens} {lens b c : Lens} {p p' q : Program}

/-- The states differ at most in the order in which assumptions are listed. -/
structure Same (p q : Program) : Prop where
  hierarchy : p.hierarchy = q.hierarchy
  settings : p.settings = q.settings
  lens : p.lens = q.lens
  reporter : p.reporter = q.reporter
  assumptions : p.assumptions.Same q.assumptions

theorem Same.refl (p : Program) : p.Same p := ⟨rfl, rfl, rfl, rfl, fun _ => rfl⟩

theorem Same.trans (h : p.Same p') (h' : p'.Same q) : p.Same q where
  hierarchy := h.hierarchy.trans h'.hierarchy
  settings := h.settings.trans h'.settings
  lens := h.lens.trans h'.lens
  reporter := h.reporter.trans h'.reporter
  assumptions x := (h.assumptions x).trans (h'.assumptions x)

theorem Same.symm (h : p.Same q) : q.Same p where
  hierarchy := h.hierarchy.symm
  settings := h.settings.symm
  lens := h.lens.symm
  reporter := h.reporter.symm
  assumptions := h.assumptions.symm

/-- The same answer, and the same state. -/
structure SameEnd (x y : Except PublishError Unit × Program) : Prop where
  answer : x.1 = y.1
  state : x.2.Same y.2

/-- **A lens that rests on the current one and is another** takes its place if the assumptions can
be written, and otherwise leaves all as it is. -/
theorem publish_cases (h : Lens.Run.Apart run lenses) (hcurrent : p.lens ∈ lenses)
    (hlens : lens ∈ lenses) (hrests : lens.restsOn p.lens = true) (hne : p.lens ≠ lens) :
    (p.assumptions.Writable ∧ ∃ r, p.assumptions.rewrite lens p.lens = .ok r ∧
        (publish lens).on p = (.ok (), { p with lens, assumptions := r })) ∨
      (¬p.assumptions.Writable ∧
        (publish lens).on p = (.error (.violated .degenerateArray), p)) := by
  have ho := publish_outcome h hcurrent hlens
  generalize (publish lens).on p = result at ho ⊢
  cases ho with
  | current heq => exact absurd heq hne
  | refused hrests' => exact absurd (hrests.symm.trans hrests') nofun
  | moved _ hr =>
    exact Or.inl ⟨(Assumptions.exists_rewrite_of_restsOn hrests).1 ⟨_, hr⟩, _, hr, rfl⟩
  | unwritable _ _ hw => exact Or.inr ⟨hw, rfl⟩

theorem publish_of_rewrite (h : Lens.Run.Apart run lenses) (hcurrent : p.lens ∈ lenses)
    (hlens : lens ∈ lenses) (hrests : lens.restsOn p.lens = true) (hne : p.lens ≠ lens)
    {r : Assumptions} (hr : p.assumptions.rewrite lens p.lens = .ok r) :
    (publish lens).on p = (.ok (), { p with lens, assumptions := r }) := by
  rcases publish_cases h hcurrent hlens hrests hne with ⟨-, r', hr', hon⟩ | ⟨hw, -⟩
  · rw [hon, Except.ok.inj (hr'.symm.trans hr)]
  · exact absurd ((Assumptions.exists_rewrite_of_restsOn hrests).1 ⟨r, hr⟩) hw

/-- **The order in which assumptions are listed does not show in what a lens meets with.** -/
theorem Same.publish (hpq : p.Same q) (h : Lens.Run.Apart run lenses) (hcurrent : p.lens ∈ lenses)
    (hlens : lens ∈ lenses) (hrests : lens.restsOn p.lens = true)
    (hagree : p.assumptions.AgreesUnder lens p.lens) :
    SameEnd ((publish lens).on p) ((publish lens).on q) := by
  have hq := hpq.lens
  by_cases hne : p.lens = lens
  · have hsame : p.lens.isSame lens = true := hne ▸ Lens.isSame_refl p.lens
    rw [publish_of_isSame hsame, publish_of_isSame (hq ▸ hsame)]
    exact ⟨rfl, hpq⟩
  · have hwritable := hpq.assumptions.writable_iff
    rcases publish_cases h hcurrent hlens hrests hne with ⟨hw, r, hr, hon⟩ | ⟨hw, hon⟩ <;>
      rcases publish_cases (p := q) h (hq ▸ hcurrent) hlens (hq ▸ hrests) (hq ▸ hne) with
        ⟨hw', r', hr', hon'⟩ | ⟨hw', hon'⟩ <;> rw [hon, hon']
    · obtain ⟨n, hn⟩ := Lens.exists_names hrests
      refine ⟨rfl, hpq.hierarchy, hpq.settings, rfl, hpq.reporter, ?_⟩
      exact hpq.assumptions.rewrite hn hagree hr (hq.symm ▸ hr')
    · exact absurd (hwritable.1 hw) hw'
    · exact absurd (hwritable.2 hw') hw
    · exact ⟨rfl, hpq⟩

/-- **To publish `b` in `p` and then `c` is to publish `c` in `q`**, however the assumptions are
listed in between.  What is stopped in the first step is stopped at once, with the same answer. -/
structure InSteps (b c : Lens) (p q : Program) : Prop where
  stopped : ∀ e, ((publish b).on p).1 = .error e →
    SameEnd ((publish b).on p) ((publish c).on q)
  published : ((publish b).on p).1 = .ok () → ∀ p', ((publish b).on p).2.Same p' →
    SameEnd ((publish c).on p') ((publish c).on q)
  /-- The collection is written twice, whether or not the lenses are published. -/
  rewritten : ∀ r, p.assumptions.rewrite b p.lens = .ok r → ∀ r', r.Same r' →
    ∃ s s', r'.rewrite c b = .ok s ∧ q.assumptions.rewrite c p.lens = .ok s' ∧ s.Same s'
  /-- Every member is stored under its last name, with the rules that it had among the others. -/
  kept : ∀ s, q.assumptions.rewrite c p.lens = .ok s → ∀ n, c.names (some p.lens) = .ok n →
    ∀ e ∈ p.assumptions.listed, ∃ i, s.info? (n.member e.1) = some i ∧
      ∀ rule ∈ e.2.origins, rule ∈ i.origins

section Steps

variable (h : Lens.Run.Apart run lenses) (hp : p.lens ∈ lenses) (hb : b ∈ lenses) (hc : c ∈ lenses)
  (hbp : b.restsOn p.lens = true) (hcb : c.restsOn b = true) (hpq : p.Same q)
include h hp hb hc hbp hcb hpq

/-- A first step to another lens that is stopped. -/
theorem stopped_in_steps (hne : p.lens ≠ b) {e : PublishError}
    (he : ((publish b).on p).1 = .error e) :
    SameEnd ((publish b).on p) ((publish c).on q) := by
  rcases publish_cases h hp hb hbp hne with ⟨-, r, -, hon⟩ | ⟨hw, hon⟩
  · rw [hon] at he
    exact nomatch he
  · have hnc : p.lens ≠ c := fun heq => hne (h.restsOn_antisymm hp hb (heq ▸ hcb) hbp)
    have hca := h.restsOn_trans hp hb hc hcb hbp
    rw [hpq.lens] at hp hca hnc
    rcases publish_cases h hp hc hca hnc with ⟨hw', -⟩ | ⟨-, hon'⟩
    · exact absurd (hpq.assumptions.writable_iff.2 hw') hw
    · rw [hon, hon']
      exact ⟨rfl, hpq⟩

variable (hapart : p.assumptions.StaysApart b p.lens)
  (hagree : p.assumptions.AgreesUnder c p.lens)
include hapart hagree

theorem rewritten_in_steps {r r' : Assumptions} (hr : p.assumptions.rewrite b p.lens = .ok r)
    (hrr : r.Same r') :
    ∃ s s', r'.rewrite c b = .ok s ∧ q.assumptions.rewrite c p.lens = .ok s' ∧ s.Same s' := by
  obtain ⟨n, n', hn, hn', hnn⟩ := h.names_comp hp hb hc hbp hcb
  have hw := (Assumptions.exists_rewrite_of_restsOn hbp).1 ⟨r, hr⟩
  have hwr := hrr.writable_iff.1 (hapart.writable hn hr hw)
  obtain ⟨s, hs⟩ := (Assumptions.exists_rewrite_of_restsOn hcb).2 hwr
  obtain ⟨s', hs'⟩ := (Assumptions.exists_rewrite_of_restsOn
    (h.restsOn_trans hp hb hc hcb hbp)).2 (hpq.assumptions.writable_iff.1 hw)
  exact ⟨s, s', hs, hs', hapart.rewrite_rewrite hn hr hn' hnn hagree hpq.assumptions hrr hs hs'⟩

/-- A first step to another lens that goes through. -/
theorem published_in_steps (hne : p.lens ≠ b) (hok : ((publish b).on p).1 = .ok ())
    (hpp : ((publish b).on p).2.Same p') :
    SameEnd ((publish c).on p') ((publish c).on q) := by
  rcases publish_cases h hp hb hbp hne with ⟨-, r, hr, hon⟩ | ⟨-, hon⟩
  · rw [hon] at hpp
    have hlens : b = p'.lens := hpp.lens
    obtain ⟨s, s', hs, hs', hss⟩ :=
      rewritten_in_steps h hp hb hc hbp hcb hpq hapart hagree hr hpp.assumptions
    have hnc : p.lens ≠ c := fun heq => hne (h.restsOn_antisymm hp hb (heq ▸ hcb) hbp)
    have hca := h.restsOn_trans hp hb hc hcb hbp
    rw [hpq.lens] at hp hca hs' hnc
    rw [publish_of_rewrite h hp hc hca hnc hs']
    by_cases hbc : b = c
    · -- The second step leaves all as it is.
      subst hbc
      obtain ⟨n, hn⟩ := Lens.exists_names hbp
      rw [publish_of_isSame (hlens ▸ Lens.isSame_refl b)]
      refine ⟨rfl, hpp.symm.trans ⟨hpq.hierarchy, hpq.settings, rfl, hpq.reporter, ?_⟩⟩
      exact hpq.assumptions.rewrite hn hagree hr (hpq.lens ▸ hs')
    · rw [hlens] at hb hcb hbc hs
      rw [publish_of_rewrite h hb hc hcb hbc hs]
      exact ⟨rfl, hpp.hierarchy.symm.trans hpq.hierarchy, hpp.settings.symm.trans hpq.settings, rfl,
        hpp.reporter.symm.trans hpq.reporter, hss⟩
  · rw [hon] at hok
    exact nomatch hok

end Steps

/-- **Publishing lens after lens is publishing the last one**, as long as the first step lets no two
members fall together, and those that fall together in the end know of one fact at most.  The
states are equal, the rules that the assumptions come from included, but for the order in which
assumptions are listed, and this order shows nowhere.  No assumption is lost on the way. -/
theorem publishing_in_steps (hmade : Lens.Run.Made run lenses) (hp : p.lens ∈ lenses)
    (hb : b ∈ lenses) (hc : c ∈ lenses) (hbp : b.restsOn p.lens = true)
    (hcb : c.restsOn b = true) (hapart : p.assumptions.StaysApart b p.lens)
    (hagree : p.assumptions.AgreesUnder c p.lens) (hpq : p.Same q) : InSteps b c p q := by
  have h := hmade.apart
  have hstay (heq : p.lens = b) : (publish b).on p = (.ok (), p) :=
    publish_of_isSame (heq ▸ Lens.isSame_refl p.lens)
  refine ⟨fun e he => ?_, fun hok p' hpp => ?_, fun r hr r' hrr => ?_, fun s hs n hn e he => ?_⟩
  · refine stopped_in_steps h hp hb hc hbp hcb hpq (fun heq => ?_) he
    rw [hstay heq] at he
    exact nomatch he
  · by_cases heq : p.lens = b
    · rw [hstay heq] at hpp
      have hlens : p.lens = p'.lens := hpp.lens
      have hagree' := hpp.assumptions.agreesUnder hagree
      rw [hlens] at hp heq hagree'
      exact (hpp.symm.trans hpq).publish h hp hc (heq ▸ hcb) hagree'
    · exact published_in_steps h hp hb hc hbp hcb hpq hapart hagree heq hok hpp
  · exact rewritten_in_steps h hp hb hc hbp hcb hpq hapart hagree hr hrr
  · have hlisted := hpq.assumptions.listed_perm.mem_iff.1 he
    exact (hpq.assumptions.agreesUnder hagree).kept hn hs hlisted

/-- New names for a class and for a field. -/
def movingOne : Layer :=
  ⟨Table.empty.insert ⟨1⟩ ⟨2⟩, .empty, Table.empty.insert ⟨1⟩ ⟨4⟩, none, false⟩

/-- That field and another one become one. -/
def mergingTwo : Layer :=
  ⟨.empty, .empty, (Table.empty.insert ⟨4⟩ ⟨5⟩).insert ⟨3⟩ ⟨5⟩, none, false⟩

def oneMoved : Lens := .nested 0 movingOne .identity

def twoMerged : Lens := .nested 1 mergingTwo oneMoved

/-- The two fields have different bounds, which the first lens makes equal. -/
def twoFields : Program where
  hierarchy := .ofRoot ⟨0⟩
  settings := .standard
  lens := .identity
  assumptions := .ofTables ((Table.empty.insert ⟨1⟩
      (.of (.upperBound (.ofClass ⟨1⟩ .maybe)) .unknown false (.ofList [1]))).insert ⟨3⟩
      (.of (.upperBound (.ofClass ⟨2⟩ .maybe)) (.number 3) true (.ofList [2]))) .empty
  reporter := .start false

theorem made_twoMerged : Lens.Run.Made ⟨2⟩ [twoMerged, oneMoved, .identity] :=
  .build mergingTwo (.build movingOne .start (List.mem_singleton_self _)) List.mem_cons_self

/-- Either way one field is left, with the one bound and with both rules. -/
theorem publishing_in_steps_twoMerged :
    Lens.Run.Made ⟨2⟩ [twoMerged, oneMoved, .identity] ∧
      twoFields.assumptions.StaysApart oneMoved .identity ∧
      twoFields.assumptions.AgreesUnder twoMerged .identity ∧
      SameEnd ((publish twoMerged).on ((publish oneMoved).on twoFields).2)
        ((publish twoMerged).on twoFields) ∧
      ((publish twoMerged).on twoFields).2.assumptions.field ⟨5⟩ =
        .of (.upperBound (.ofClass ⟨2⟩ .maybe)) (.number 3) true (.ofList [1, 2]) := by
  have hapart : twoFields.assumptions.StaysApart oneMoved .identity := by
    rintro _ ⟨⟩
    decide
  have hagree : twoFields.assumptions.AgreesUnder twoMerged .identity := by
    rintro _ ⟨⟩
    decide
  have hsteps : InSteps oneMoved twoMerged twoFields twoFields :=
    publishing_in_steps made_twoMerged (by simp [twoFields]) (by simp) (by simp) rfl rfl hapart
      hagree (.refl twoFields)
  exact ⟨made_twoMerged, hapart, hagree, hsteps.published rfl _ (.refl _), by decide⟩

end Program
end IrAnalysis
