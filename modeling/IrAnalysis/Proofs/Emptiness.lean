/-
# Being empty and saying nothing

Whether an info is empty can be kept as a tag beside its parts (`Info.Tagged`), so that nobody has
to look at them again.  The tag is set when an info is created and otherwise handed on: an empty
info is handed through a meet, and an info that a lens or a removal does not touch stays as it is.
So it has to be asked whether it still tells the truth after any number of such steps, and whether
a collection that drops what is tagged as empty, each time that it is built, moved or pruned,
stores exactly the members about which something may be assumed.

It does.  A tag is what the parts say (`Info.tagged`), and each way to make an info makes the same
of infos with tags as of infos without (`Info.tagged_meet`, `Info.tagged_rewrite`,
`Info.tagged_prune`); so do the ways to make a collection (`Assumptions.tagged_rewrite`,
`Assumptions.tagged_prune`).  By induction on how something was made, emptiness is the same as
saying nothing throughout (`empty_exactly_if_silent`).
-/

import IrAnalysis.Proofs.Forgetting
import IrAnalysis.Proofs.Gathering
import IrAnalysis.Proofs.Moving

namespace IrAnalysis

/-! ### Infos with a tag -/

namespace Info

namespace Draft

instance (d : Draft) : Decidable d.Silent := inferInstanceAs (Decidable (_ ∧ _ ∧ _))

deriving instance DecidableEq for Draft

/-- **To be empty is to say nothing**, and what is empty comes from no rule. -/
structure EmptyIf (isEmpty : Bool) (d : Draft) : Prop where
  iff : isEmpty = true ↔ d.fact = .unknown ∧ d.value = .unknown ∧ d.pure = false
  origins : isEmpty = true → d.origins = .empty

end Draft

/-- An info with a tag: nothing is assumed, or the parts are given. -/
inductive Tagged
  | nothing
  | parts (d : Draft)

namespace Tagged

def isEmpty : Tagged → Bool
  | nothing => true
  | parts _ => false

/-- What the info says. -/
def draft : Tagged → Draft
  | nothing => .empty
  | parts d => d

/-- The tag is found by a look at the parts. -/
def create (d : Draft) : Tagged := if d.Silent then nothing else parts d

/-- Nothing is handed through, and what is one and the same info on both sides stays as it is.
Infos of the same parts may be one info or two. -/
def meet (shared : Bool) : Tagged → Tagged → Tagged
  | nothing, t => t
  | t, nothing => t
  | parts d, parts e => if shared = true ∧ d = e then parts d else create (d.meet e)

/-- The parts in new names, or as they are when no name is new. -/
def rewrite (lens since : Lens) : Tagged → Checked Tagged
  | nothing => .ok nothing
  | parts d => do
    let fact ← d.fact.tryRename (lens.types since)
    let value ← d.value.tryRename (lens.fields since)
    return if fact = d.fact ∧ value = d.value then parts d
      else create ⟨fact, value, d.pure, d.origins⟩

/-- Only a value that is read from a removed field is looked at again. -/
def prune (p : Pruned) : Tagged → Tagged
  | nothing => nothing
  | parts d =>
    if d.value.readsRemoved p then create { d with value := .unknown } else parts d

end Tagged

/-- The info with the tag that its parts deserve. -/
def tagged (i : Info) : Tagged := if i.isEmpty then .nothing else .parts i.draft

variable {i : Info}

theorem emptyIf (i : Info) : i.draft.EmptyIf i.isEmpty where
  iff := i.isEmpty_iff
  origins hi := by
    rw [of_decide_eq_true hi]
    rfl

theorem tagged_of_isEmpty (h : i.isEmpty = true) : i.tagged = .nothing := if_pos h

theorem tagged_of_not_isEmpty (h : i.isEmpty = false) : i.tagged = .parts i.draft :=
  if_neg (Bool.eq_false_iff.1 h)

/-- **The tag tells whether the info is empty, and no part is lost.** -/
theorem isEmpty_tagged (i : Info) : i.tagged.isEmpty = i.isEmpty ∧ i.tagged.draft = i.draft := by
  cases h : i.isEmpty with
  | true =>
    rw [tagged_of_isEmpty h, of_decide_eq_true h]
    exact ⟨rfl, rfl⟩
  | false =>
    rw [tagged_of_not_isEmpty h]
    exact ⟨rfl, rfl⟩

theorem emptyIf_tagged (i : Info) : i.tagged.draft.EmptyIf i.tagged.isEmpty := by
  rw [i.isEmpty_tagged.1, i.isEmpty_tagged.2]
  exact i.emptyIf

/-- **Creating an info finds the tag.** -/
theorem tagged_build (d : Draft) : d.build.tagged = .create d := by
  have hiff : d.build.isEmpty = true ↔ d.Silent := by
    rw [isEmpty_iff, Draft.build_fact, Draft.build_value, Draft.build_pure]
    exact Iff.rfl
  by_cases hd : d.Silent
  · rw [Tagged.create, if_pos hd, tagged_of_isEmpty (hiff.2 hd)]
  · rw [Tagged.create, if_neg hd, tagged_of_not_isEmpty (Bool.eq_false_iff.2 (mt hiff.1 hd)),
      draft_build fun hs => absurd hs hd]

theorem meet_self (i : Info) : i.meet i = i := by
  have horigins : i.origins.union i.origins = i.origins :=
    NatSet.ext_mem fun k => NatSet.mem_union.trans (or_self_iff)
  rw [meet, TypeFact.meet_self, AbsVal.meet_self, Bool.or_self, horigins, of_parts]

theorem meet_empty (i : Info) : i.meet empty = i := by
  show of (i.fact.meet .unknown) (i.value.meet .unknown) (i.pure || false) i.origins = i
  rw [TypeFact.meet_unknown, AbsVal.meet_unknown, Bool.or_false, of_parts]

theorem tagged_meet (shared : Bool) (i j : Info) :
    (i.meet j).tagged = i.tagged.meet shared j.tagged := by
  cases hi : i.isEmpty with
  | true =>
    rw [tagged_of_isEmpty hi, of_decide_eq_true hi, empty_meet]
    rfl
  | false =>
    cases hj : j.isEmpty with
    | true =>
      rw [tagged_of_isEmpty hj, of_decide_eq_true hj, meet_empty, tagged_of_not_isEmpty hi]
      rfl
    | false =>
      rw [tagged_of_not_isEmpty hi, tagged_of_not_isEmpty hj, Tagged.meet]
      split_ifs with heq
      -- What is handed through is what the meet of the info with itself would be.
      · obtain rfl : i = j := by rw [← build_draft i, heq.2, build_draft]
        rw [meet_self, tagged_of_not_isEmpty hi]
      · exact tagged_build (i.draft.meet j.draft)

theorem tagged_prune (p : Pruned) (i : Info) : (i.prune p).tagged = i.tagged.prune p := by
  cases hi : i.isEmpty with
  | true =>
    rw [tagged_of_isEmpty hi, of_decide_eq_true hi]
    rfl
  | false =>
    rw [tagged_of_not_isEmpty hi, prune_eq, Tagged.prune]
    show _ = if i.value.readsRemoved p then _ else _
    split_ifs
    · exact tagged_build { i.draft with value := .unknown }
    · exact tagged_of_not_isEmpty hi

theorem tagged_rewrite (lens since : Lens) (i : Info) :
    i.tagged.rewrite lens since = (i.rewrite lens since).map tagged := by
  cases hi : i.isEmpty with
  | true =>
    rw [tagged_of_isEmpty hi, of_decide_eq_true hi]
    rfl
  | false =>
    rw [tagged_of_not_isEmpty hi, Tagged.rewrite, rewrite]
    simp only [draft]
    cases i.fact.tryRename (lens.types since) with
    | error v => rfl
    | ok fact =>
      cases i.value.tryRename (lens.fields since) with
      | error v => rfl
      | ok value =>
        refine congrArg Except.ok ?_
        -- Where nothing is renamed the tag is kept, and it is the one that would be found again.
        by_cases hsame : fact = i.fact ∧ value = i.value
        · obtain ⟨rfl, rfl⟩ := hsame
          rw [of_parts, tagged_of_not_isEmpty hi]
          exact if_pos ⟨rfl, rfl⟩
        · exact (if_neg hsame).trans (tagged_build _).symm

/-- How an info was made. -/
inductive Recipe
  | empty
  | create (d : Draft)
  | build (calls : Draft.Calls)
  | meet (shared : Bool) (left right : Recipe)
  | rewrite (r : Recipe) (lens since : Lens)
  | prune (r : Recipe) (p : Pruned)

namespace Recipe

def info : Recipe → Checked Info
  | empty => .ok Info.empty
  | create d => .ok (of d.fact d.value d.pure d.origins)
  | build calls => .ok calls.draft.build
  | meet _ left right => do return (← left.info).meet (← right.info)
  | rewrite r lens since => do (← r.info).rewrite lens since
  | prune r p => do return (← r.info).prune p

/-- The same with tags. -/
def tagged : Recipe → Checked Tagged
  | empty => .ok .nothing
  | create d => .ok (.create d)
  | build calls => .ok (.create calls.draft)
  | meet shared left right => do return (← left.tagged).meet shared (← right.tagged)
  | rewrite r lens since => do (← r.tagged).rewrite lens since
  | prune r p => do return (← r.tagged).prune p

/-- **However an info is made, its tag is what its parts say.** -/
theorem tagged_eq (r : Recipe) : r.tagged = r.info.map Info.tagged := by
  induction r with
  | empty => rfl
  | create d => exact congrArg Except.ok (tagged_build d).symm
  | build calls => exact congrArg Except.ok (tagged_build calls.draft).symm
  | meet shared left right ihl ihr =>
    rw [tagged, info, ihl, ihr]
    cases left.info with
    | error v => rfl
    | ok i =>
      cases right.info with
      | error v => rfl
      | ok j => exact congrArg Except.ok (tagged_meet shared i j).symm
  | rewrite r lens since ih =>
    rw [tagged, info, ih]
    cases r.info with
    | error v => rfl
    | ok i => exact tagged_rewrite lens since i
  | prune r p ih =>
    rw [tagged, info, ih]
    cases r.info with
    | error v => rfl
    | ok i => exact congrArg Except.ok (tagged_prune p i).symm

end Recipe

end Info

/-! ### Tables -/

namespace Table

variable {κ α β γ : Type} {t u : Table κ α}

theorem eq_of_entries (h : t.entries = u.entries) : t = u := by
  obtain ⟨entries, hnodup⟩ := t
  obtain rfl : entries = u.entries := h
  rfl

/-- Entries that pass two tests are those that pass both at once. -/
theorem filterMap_filterMap (f : κ → α → Option β) (g : κ → β → Option γ) (t : Table κ α) :
    (t.filterMap f).filterMap g = t.filterMap fun k a => (f k a).bind (g k) := by
  refine eq_of_entries (List.filterMap_filterMap.trans (List.filterMap_congr fun e _ => ?_))
  show ((f e.1 e.2).map _).bind _ = ((f e.1 e.2).bind (g e.1)).map _
  cases f e.1 e.2 <;> rfl

/-- The table with its contents changed. -/
def mapValues (f : α → β) (t : Table κ α) : Table κ β := t.filterMap fun _ a => some (f a)

theorem entries_mapValues (f : α → β) (t : Table κ α) :
    (t.mapValues f).entries = t.entries.map fun e => (e.1, f e.2) :=
  congrFun List.filterMap_eq_map t.entries

variable [DecidableEq κ]

/-- **A table lists the members of which something is said**, each with an info that says it. -/
structure Informed (isEmpty : α → Bool) (draft : α → Info.Draft) (get : κ → α) (t : Table κ α) :
    Prop where
  stored : ∀ e ∈ t.entries, isEmpty e.2 = false
  emptyIf : ∀ e ∈ t.entries, (draft e.2).EmptyIf (isEmpty e.2)
  contains_iff : ∀ k, t.contains k = true ↔ isEmpty (get k) = false

theorem informed_of_stored {isEmpty : α → Bool} {draft : α → Info.Draft} {nothing : α}
    (hnothing : isEmpty nothing = true) (hstored : ∀ e ∈ t.entries, isEmpty e.2 = false)
    (hempty : ∀ e ∈ t.entries, (draft e.2).EmptyIf (isEmpty e.2)) :
    t.Informed isEmpty draft fun k => (t.get? k).getD nothing where
  stored := hstored
  emptyIf := hempty
  contains_iff k := by
    rw [contains]
    cases hk : t.get? k with
    | none => simp [hnothing]
    | some i => simp [hstored _ ((mem_entries t k i).2 hk)]

theorem informed_tagged (info : α → Info) (h : ∀ e ∈ t.entries, (info e.2).isEmpty = false) :
    (t.mapValues fun a => (info a).tagged).Informed Info.Tagged.isEmpty Info.Tagged.draft fun k =>
      ((t.mapValues fun a => (info a).tagged).get? k).getD .nothing := by
  refine informed_of_stored rfl ?_ ?_
  all_goals
    rw [entries_mapValues, List.forall_mem_map]
    intro e he
  · exact (info e.2).isEmpty_tagged.1.trans (h e he)
  · exact (info e.2).emptyIf_tagged

end Table

/-! ### Collections of infos with a tag -/

namespace Assumptions

section Changed

variable {κ α β : Type} {f : α → β} {isEmpty : α → Bool} {isEmpty' : β → Bool}

theorem informed_mapValues (h : ∀ a, isEmpty' (f a) = isEmpty a) (t : Table κ α) :
    informed isEmpty' (t.mapValues f) = (informed isEmpty t).mapValues f := by
  rw [informed, informed, Table.mapValues, Table.mapValues, Table.filterMap_filterMap,
    Table.filterMap_filterMap]
  congr 1
  funext k a
  simp only [Option.bind_some, h]
  split <;> rfl

variable [DecidableEq κ] {key : Checked (κ → κ)} {rewrite : α → Checked α}
  {rewrite' : β → Checked β} {meet : α → α → α} {meet' : β → β → β}

theorem gather_mapValues (hmeet : ∀ a b, f (meet a b) = meet' (f a) (f b)) (t : Table κ α) (k : κ)
    (a : α) : gather meet' (t.mapValues f) k (f a) = (gather meet t k a).mapValues f := by
  refine Table.eq_of_entries ?_
  rw [Table.entries_mapValues, gather, gather, Table.alter, Table.alter]
  simp only [Table.entries_mapValues]
  induction t.entries with
  | nil => rfl
  | cons e entries ih =>
    by_cases he : e.1 = k
    · simp [Table.alterEntries, he, hmeet]
    · simp [Table.alterEntries, he, ih]

/-- **Contents may be changed before or after they are moved.** -/
theorem moveInto_mapValues (hmeet : ∀ a b, f (meet a b) = meet' (f a) (f b))
    (hrewrite : ∀ a, rewrite' (f a) = (rewrite a).map f) (entries : List (κ × α)) (t : Table κ α) :
    moveInto key rewrite' meet' (entries.map fun e => (e.1, f e.2)) (t.mapValues f) =
      (moveInto key rewrite meet entries t).map (Table.mapValues f) := by
  induction entries generalizing t with
  | nil => rfl
  | cons e entries ih =>
    rw [moveInto, moveInto, List.map_cons, List.foldlM_cons, List.foldlM_cons, hrewrite]
    cases rewrite e.2 with
    | error v => rfl
    | ok a =>
      cases key with
      | error v => rfl
      | ok key =>
        refine Eq.trans ?_ (ih (gather meet t (key e.1) a))
        rw [← gather_mapValues hmeet]
        rfl

end Changed

/-- A collection of infos with tags. -/
structure Tagged where
  fields : Table FieldId Info.Tagged
  methods : Table MethodId Info.Tagged

namespace Tagged

def field (t : Tagged) (f : FieldId) : Info.Tagged := (t.fields.get? f).getD .nothing

def method (t : Tagged) (m : MethodId) : Info.Tagged := (t.methods.get? m).getD .nothing

/-- What is tagged as empty is not kept. -/
def ofTables (fields : Table FieldId Info.Tagged) (methods : Table MethodId Info.Tagged) : Tagged :=
  ⟨informed Info.Tagged.isEmpty fields, informed Info.Tagged.isEmpty methods⟩

/-- A method that was never gathered about says nothing. -/
def build (d : Draft) : Tagged :=
  ofTables (d.fields.filterMap fun _ e => some (.create e))
    (d.methods.filterMap fun _ e => some (e.unconditional.elim .nothing .create))

def rewrite (t : Tagged) (shared : Bool) (lens since : Lens) : Checked Tagged := do
  let fields ← moveEntries (lens.fields since) (·.rewrite lens since) (Info.Tagged.meet shared)
    t.fields.entries
  let methods ← moveEntries (lens.methods since) (·.rewrite lens since) (Info.Tagged.meet shared)
    t.methods.entries
  return ofTables fields methods

def prune (t : Tagged) (p : Pruned) : Tagged :=
  ofTables
    (t.fields.filterMap fun f i => if f ∈ p.fields then none else some (i.prune p))
    (t.methods.filterMap fun m i => if m ∈ p.methods then none else some (i.prune p))

end Tagged

/-- The collection with the tags that its infos deserve. -/
def tagged (a : Assumptions) : Tagged where
  fields := a.fields.mapValues Info.tagged
  methods := a.methods.mapValues fun i => i.unconditional.tagged

theorem tagged_ofTables (fields : Table FieldId Info) (methods : Table MethodId MethodInfo) :
    (ofTables fields methods).tagged = .ofTables (fields.mapValues Info.tagged)
      (methods.mapValues fun i => i.unconditional.tagged) := by
  have hfields := informed_mapValues (fun i => i.isEmpty_tagged.1) fields
  have hempty : ∀ i : MethodInfo, i.unconditional.tagged.isEmpty = i.isEmpty :=
    fun i => i.unconditional.isEmpty_tagged.1
  rw [Tagged.ofTables, hfields, informed_mapValues hempty]
  rfl

theorem tagged_build (d : Draft) : d.build.tagged = .build d := by
  rw [Draft.build, tagged_ofTables, Tagged.build, Table.mapValues, Table.mapValues,
    Table.filterMap_filterMap, Table.filterMap_filterMap]
  congr 2
  · funext f e
    exact congrArg some (Info.tagged_build e)
  · funext m e
    obtain ⟨_ | gathered⟩ := e
    · rfl
    · exact congrArg some (Info.tagged_build gathered)

theorem tagged_prune (p : Pruned) (a : Assumptions) : (a.prune p).tagged = a.tagged.prune p := by
  rw [prune, tagged_ofTables, Tagged.prune, tagged, Table.mapValues, Table.mapValues,
    Table.mapValues, Table.mapValues]
  simp only [Table.filterMap_filterMap]
  congr 2
  · funext f i
    rw [Option.bind_some, ← Info.tagged_prune]
    split_ifs <;> rfl
  · funext m i
    rw [Option.bind_some, ← Info.tagged_prune]
    split_ifs <;> rfl

theorem tagged_rewrite (shared : Bool) (lens since : Lens) (a : Assumptions) :
    a.tagged.rewrite shared lens since = (a.rewrite lens since).map tagged := by
  have hfields : moveEntries (lens.fields since) (·.rewrite lens since) (Info.Tagged.meet shared)
      a.tagged.fields.entries =
        (moveEntries (lens.fields since) (·.rewrite lens since) Info.meet a.fields.entries).map
          (Table.mapValues Info.tagged) := by
    rw [tagged, Table.entries_mapValues]
    exact moveInto_mapValues (Info.tagged_meet shared) (Info.tagged_rewrite lens since) _ .empty
  have hmeet (i j : MethodInfo) : (i.meet j).unconditional.tagged =
      i.unconditional.tagged.meet shared j.unconditional.tagged :=
    Info.tagged_meet shared i.unconditional j.unconditional
  have hrewrite (i : MethodInfo) : i.unconditional.tagged.rewrite lens since =
      (i.rewrite lens since).map fun i => i.unconditional.tagged := by
    rw [Info.tagged_rewrite, MethodInfo.rewrite]
    cases i.unconditional.rewrite lens since <;> rfl
  have hmethods : moveEntries (lens.methods since) (·.rewrite lens since)
      (Info.Tagged.meet shared) a.tagged.methods.entries =
        (moveEntries (lens.methods since) (·.rewrite lens since) MethodInfo.meet
          a.methods.entries).map (Table.mapValues fun i => i.unconditional.tagged) := by
    rw [tagged, Table.entries_mapValues]
    exact moveInto_mapValues hmeet hrewrite _ .empty
  rw [Tagged.rewrite, rewrite, hfields, hmethods]
  cases moveEntries (lens.fields since) (·.rewrite lens since) Info.meet a.fields.entries with
  | error v => rfl
  | ok fields =>
    cases moveEntries (lens.methods since) (·.rewrite lens since) MethodInfo.meet
        a.methods.entries with
    | error v => rfl
    | ok methods => exact congrArg Except.ok (tagged_ofTables fields methods).symm

/-- How a collection was made. -/
inductive Recipe
  | build (d : Draft)
  | rewrite (r : Recipe) (shared : Bool) (lens since : Lens)
  | prune (r : Recipe) (p : Pruned)

namespace Recipe

def collection : Recipe → Checked Assumptions
  | build d => .ok d.build
  | rewrite r _ lens since => do (← r.collection).rewrite lens since
  | prune r p => do return (← r.collection).prune p

/-- The same with tags. -/
def tagged : Recipe → Checked Tagged
  | build d => .ok (.build d)
  | rewrite r shared lens since => do (← r.tagged).rewrite shared lens since
  | prune r p => do return (← r.tagged).prune p

/-- **However a collection is made, it stores the same with tags as without.** -/
theorem tagged_eq (r : Recipe) : r.tagged = r.collection.map Assumptions.tagged := by
  induction r with
  | build d => exact congrArg Except.ok (tagged_build d).symm
  | rewrite r shared lens since ih =>
    rw [tagged, collection, ih]
    cases r.collection with
    | error v => rfl
    | ok a => exact tagged_rewrite shared lens since a
  | prune r p ih =>
    rw [tagged, collection, ih]
    cases r.collection with
    | error v => rfl
    | ok a => exact congrArg Except.ok (tagged_prune p a).symm

end Recipe

/-! ### What is stored -/

/-- What is stored of a collection is what something may be assumed about. -/
theorem informed_entries (a : Assumptions) :
    a.fields.Informed Info.isEmpty Info.draft a.field ∧
      a.methods.Informed MethodInfo.isEmpty (·.unconditional.draft) a.method :=
  ⟨Table.informed_of_stored rfl a.fields_informed fun e _ => e.2.emptyIf,
    Table.informed_of_stored rfl a.methods_informed fun e _ => e.2.unconditional.emptyIf⟩

theorem informed_tagged (a : Assumptions) :
    a.tagged.fields.Informed Info.Tagged.isEmpty Info.Tagged.draft a.tagged.field ∧
      a.tagged.methods.Informed Info.Tagged.isEmpty Info.Tagged.draft a.tagged.method :=
  ⟨Table.informed_tagged id a.fields_informed,
    Table.informed_tagged MethodInfo.unconditional a.methods_informed⟩

end Assumptions

theorem Checked.eq_ok_of_map {α β : Type} {f : α → β} {x : Checked α} {y : β}
    (h : x.map f = .ok y) : ∃ a, x = .ok a ∧ f a = y := by
  cases x with
  | error v => cases h
  | ok a => exact ⟨a, rfl, Except.ok.inj h⟩

/-- **However they are made, infos are empty exactly if they say nothing, and collections store
exactly the members about which they say something.**  It holds of infos that are compared with the
empty one as of infos with a tag, since the two are made alike. -/
theorem empty_exactly_if_silent :
    (∀ r : Info.Recipe, r.tagged = r.info.map Info.tagged ∧
      (∀ t, r.tagged = .ok t → t.draft.EmptyIf t.isEmpty) ∧
      ∀ i, r.info = .ok i → i.draft.EmptyIf i.isEmpty) ∧
    ∀ r : Assumptions.Recipe, r.tagged = r.collection.map Assumptions.tagged ∧
      (∀ t, r.tagged = .ok t →
        t.fields.Informed Info.Tagged.isEmpty Info.Tagged.draft t.field ∧
          t.methods.Informed Info.Tagged.isEmpty Info.Tagged.draft t.method) ∧
      ∀ a, r.collection = .ok a → a.fields.Informed Info.isEmpty Info.draft a.field ∧
        a.methods.Informed MethodInfo.isEmpty (·.unconditional.draft) a.method := by
  refine ⟨fun r => ⟨r.tagged_eq, fun t ht => ?_, fun i _ => i.emptyIf⟩,
    fun r => ⟨r.tagged_eq, fun t ht => ?_, fun a _ => a.informed_entries⟩⟩
  · rw [r.tagged_eq] at ht
    obtain ⟨i, -, rfl⟩ := Checked.eq_ok_of_map ht
    exact i.emptyIf_tagged
  · rw [r.tagged_eq] at ht
    obtain ⟨a, -, rfl⟩ := Checked.eq_ok_of_map ht
    exact a.informed_tagged

/-- Two rules that bound the type of a member in different ways. -/
def Info.atOdds : Info.Recipe :=
  .meet false (.create ⟨.nonNull, .unknown, false, .ofList [0]⟩)
    (.create ⟨.upperBound .top, .unknown, false, .ofList [1]⟩)

/-- Two fields that are known to hold what the third one does, which is removed; nothing else is
assumed about the first. -/
def Assumptions.readingRemoved : Assumptions.Recipe :=
  let fields := (Table.empty.insert ⟨0⟩ ⟨.unknown, .field ⟨2⟩, false, .ofList [0]⟩).insert ⟨1⟩
    ⟨.unknown, .field ⟨2⟩, true, .ofList [1]⟩
  .prune (.build ⟨fields, .empty⟩) ⟨[], [], [⟨2⟩]⟩

/-- What is at odds leaves nothing, and no rule; and a field about which nothing is left is no
longer stored. -/
theorem empty_exactly_if_silent_conflict :
    (Info.atOdds.tagged = .ok .nothing ∧ Info.Tagged.nothing.draft.EmptyIf true) ∧
      (Info.atOdds.info = .ok .empty ∧ Info.empty.draft.EmptyIf Info.empty.isEmpty) ∧
      (∃ t, Assumptions.readingRemoved.tagged = .ok t ∧
        (t.fields.contains ⟨0⟩ = false ∧ (t.field ⟨0⟩).isEmpty = true) ∧
        (t.fields.contains ⟨1⟩ = true ∧ (t.field ⟨1⟩).isEmpty = false)) ∧
      ∃ a, Assumptions.readingRemoved.collection = .ok a ∧
        (a.fields.contains ⟨0⟩ = false ∧ (a.field ⟨0⟩).isEmpty = true) ∧
        (a.fields.contains ⟨1⟩ = true ∧ (a.field ⟨1⟩).isEmpty = false) := by
  obtain ⟨hinfos, hcollections⟩ := empty_exactly_if_silent
  obtain ⟨-, htag, hparts⟩ := hinfos Info.atOdds
  obtain ⟨-, htags, htables⟩ := hcollections Assumptions.readingRemoved
  refine ⟨⟨rfl, htag _ rfl⟩, ⟨rfl, hparts _ rfl⟩, ⟨_, rfl, ⟨rfl, rfl⟩, rfl, ?_⟩,
    ⟨_, rfl, ⟨rfl, rfl⟩, rfl, ?_⟩⟩
  · exact ((htags _ rfl).1.contains_iff ⟨1⟩).1 rfl
  · exact ((htables _ rfl).1.contains_iff ⟨1⟩).1 rfl

end IrAnalysis
