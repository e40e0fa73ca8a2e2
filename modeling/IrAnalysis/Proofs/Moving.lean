/-
# Moving assumptions to the names of a new lens

Members may fall together under a new lens, and then their infos are met, one after the
other as the entries come.  What is stored under a new name is what is left of the infos,
in new names, of all members that have it now (`Assumptions.rewrite_merges`): their common
value, freedom from side effects if one has it, and their fact if they agree on one.  On
the way an info may say nothing any more, and it is only looked at again at the end whether
it does; so neither the order of the entries nor the grouping shows in it.

Only one thing can stop a move between lenses that rest on each other: a bound that names
an array of classes without dimensions, which cannot be written in new names.
-/

import IrAnalysis.Assumption.Collection
import IrAnalysis.Proofs.LensStack
import IrAnalysis.Proofs.Meeting

namespace IrAnalysis

namespace TypeFact

/-- The fact bounds a value by an array of classes that has no dimensions. -/
def isFlatBound : TypeFact → Bool
  | upperBound (.ref (.array (.cls _) 0) _) => true
  | _ => false

theorem tryRename_eq (f : ClassId → ClassId) (fact : TypeFact) :
    fact.tryRename (.ok f) =
      if fact.isFlatBound then .error .degenerateArray else .ok (fact.rename f) := by
  rcases fact with _ | _ | (_ | _ | _ | _ | ⟨c | ⟨p | c, _ | dims⟩, n⟩) <;> rfl

end TypeFact

namespace AbsVal

theorem tryRename_ok (g : FieldId → FieldId) (v : AbsVal) :
    v.tryRename (.ok g) = .ok (v.rename g) := by
  cases v <;> rfl

end AbsVal

namespace Info

variable {lens since : Lens} {f : ClassId → ClassId} {g : FieldId → FieldId}

/-- The info in new names. -/
def renamed (f : ClassId → ClassId) (g : FieldId → FieldId) (i : Info) : Info :=
  of (i.fact.rename f) (i.value.rename g) i.pure i.origins

theorem rewrite_eq (hf : lens.types (some since) = .ok f) (hg : lens.fields (some since) = .ok g)
    (i : Info) : i.rewrite lens since =
      if i.fact.isFlatBound then .error .degenerateArray else .ok (i.renamed f g) := by
  rw [rewrite, hf, hg, TypeFact.tryRename_eq, AbsVal.tryRename_ok]
  split <;> rfl

theorem exists_rewrite_iff (hf : lens.types (some since) = .ok f)
    (hg : lens.fields (some since) = .ok g) (i : Info) :
    (∃ i', i.rewrite lens since = .ok i') ↔ i.fact.isFlatBound = false := by
  rw [rewrite_eq hf hg]
  cases i.fact.isFlatBound with
  | true => exact iff_of_false (by rintro ⟨i', hi'⟩; cases hi') nofun
  | false => exact iff_of_true ⟨_, rfl⟩ rfl

theorem eq_renamed_of_rewrite (hf : lens.types (some since) = .ok f)
    (hg : lens.fields (some since) = .ok g) {i i' : Info} (h : i.rewrite lens since = .ok i') :
    i' = i.renamed f g := by
  rw [rewrite_eq hf hg] at h
  split at h
  · cases h
  · exact (Except.ok.inj h).symm

theorem eq_degenerateArray_of_rewrite (hf : lens.types (some since) = .ok f)
    (hg : lens.fields (some since) = .ok g) {i : Info} {v : Violation}
    (h : i.rewrite lens since = .error v) : v = .degenerateArray := by
  rw [rewrite_eq hf hg] at h
  split at h
  · exact (Except.error.inj h).symm
  · cases h

end Info

namespace MethodInfo

variable {lens since : Lens} {f : ClassId → ClassId} {g : FieldId → FieldId}

/-- The info of a method is moved as its unconditional part is. -/
theorem rewrite_eq_ok_iff {i i' : MethodInfo} : i.rewrite lens since = .ok i' ↔
    i.unconditional.rewrite lens since = .ok i'.unconditional := by
  rw [rewrite]
  cases i.unconditional.rewrite lens since with
  | error violation => exact iff_of_false (fun h => by cases h) (fun h => by cases h)
  | ok j =>
    constructor
    · intro h
      cases h
      rfl
    · intro h
      cases h
      rfl

theorem rewrite_eq_error_iff {i : MethodInfo} {v : Violation} :
    i.rewrite lens since = .error v ↔ i.unconditional.rewrite lens since = .error v := by
  rw [rewrite]
  cases i.unconditional.rewrite lens since with
  | error v' =>
    constructor
    · intro h
      cases h
      rfl
    · intro h
      cases h
      rfl
  | ok j => exact iff_of_false nofun nofun

theorem exists_rewrite_iff (hf : lens.types (some since) = .ok f)
    (hg : lens.fields (some since) = .ok g) (i : MethodInfo) :
    (∃ i', i.rewrite lens since = .ok i') ↔ i.unconditional.fact.isFlatBound = false := by
  rw [← Info.exists_rewrite_iff hf hg]
  constructor
  · rintro ⟨i', hi'⟩
    exact ⟨_, rewrite_eq_ok_iff.1 hi'⟩
  · rintro ⟨i', hi'⟩
    exact ⟨⟨i'⟩, rewrite_eq_ok_iff.2 hi'⟩

end MethodInfo

namespace Assumptions

/-! ### Gathering entries under new keys -/

section Gathering

variable {κ α : Type} [DecidableEq κ] {key : κ → κ} {rewrite : α → Checked α}
  {meet : α → α → α} {isEmpty : α → Bool} {view renamed : α → Info} {entries : List (κ × α)}
  {t t' : Table κ α}

/-- Move entries beside what is in a table already. -/
def moveInto (key : Checked (κ → κ)) (rewrite : α → Checked α) (meet : α → α → α)
    (entries : List (κ × α)) (t : Table κ α) : Checked (Table κ α) :=
  entries.foldlM (fun t e => do
    let info ← rewrite e.2
    return gather meet t ((← key) e.1) info) t

theorem moveInto_cons (e : κ × α) (entries : List (κ × α)) (t : Table κ α) :
    moveInto (.ok key) rewrite meet (e :: entries) t =
      rewrite e.2 >>= fun i =>
        moveInto (.ok key) rewrite meet entries (gather meet t (key e.1) i) := by
  rw [moveInto, List.foldlM_cons]
  cases rewrite e.2 <;> rfl

/-- The move goes through exactly if every info can be rewritten. -/
theorem exists_moveInto_iff : (∃ t', moveInto (.ok key) rewrite meet entries t = .ok t') ↔
    ∀ e ∈ entries, ∃ i, rewrite e.2 = .ok i := by
  induction entries generalizing t with
  | nil => exact iff_of_true ⟨t, rfl⟩ fun e he => absurd he List.not_mem_nil
  | cons e entries ih =>
    rw [List.forall_mem_cons, moveInto_cons]
    cases he : rewrite e.2 with
    | error violation =>
      refine iff_of_false ?_ ?_
      · rintro ⟨t', ht'⟩
        cases ht'
      · rintro ⟨⟨i, hi⟩, -⟩
        cases hi
    | ok i => exact ih.trans (and_iff_right ⟨i, rfl⟩).symm

/-- A move is stopped by an info that cannot be rewritten. -/
theorem exists_of_moveInto_error {v : Violation}
    (hmove : moveInto (.ok key) rewrite meet entries t = .error v) :
    ∃ e ∈ entries, rewrite e.2 = .error v := by
  induction entries generalizing t with
  | nil => cases hmove
  | cons e entries ih =>
    rw [moveInto_cons] at hmove
    cases he : rewrite e.2 with
    | error v' =>
      rw [he] at hmove
      cases hmove
      exact ⟨e, List.mem_cons_self, he⟩
    | ok i =>
      rw [he] at hmove
      obtain ⟨e', he', herror⟩ := ih hmove
      exact ⟨e', List.mem_cons_of_mem _ he', herror⟩

/-- The infos, in new names, of the entries whose key becomes `k`. -/
def under (key : κ → κ) (renamed : α → Info) (entries : List (κ × α)) (k : κ) : List Info :=
  (entries.filter fun e => key e.1 = k).map fun e => renamed e.2

theorem under_cons (e : κ × α) (entries : List (κ × α)) (k : κ) :
    under key renamed (e :: entries) k =
      if key e.1 = k then renamed e.2 :: under key renamed entries k
      else under key renamed entries k := by
  rw [under, List.filter_cons]
  by_cases hk : key e.1 = k
  · rw [if_pos (decide_eq_true hk), if_pos hk, List.map_cons]
    rfl
  · rw [if_neg (by simpa using hk), if_neg hk]
    rfl

theorem under_perm {entries' : List (κ × α)} (h : entries.Perm entries') (k : κ) :
    (under key renamed entries k).Perm (under key renamed entries' k) :=
  (h.filter _).map _

/-- One more info for a key that may have one. -/
def meetNext (o : Option Info) (i : Info) : Option Info := some ((o.getD .empty).meet i)

theorem foldl_meetNext (is : List Info) :
    is.foldl meetNext none = if is.isEmpty then none else some (Info.meetAll is) := by
  have hsome : ∀ (is : List Info) (j : Info),
      is.foldl meetNext (some j) = some (is.foldl Info.meet j) := by
    intro is
    induction is with
    | nil => exact fun j => rfl
    | cons i is ih => exact fun j => ih (j.meet i)
  cases is with
  | nil => rfl
  | cons i is => exact hsome is (Info.empty.meet i)

/-- What one more entry does to each key. -/
theorem get?_gather (hmeet : ∀ i j, view (meet i j) = (view i).meet (view j)) (j k : κ) (i : α) :
    ((gather meet t j i).get? k).map view =
      if j = k then meetNext ((t.get? k).map view) (view i) else (t.get? k).map view := by
  rw [gather, Table.get?_alter]
  by_cases hjk : j = k
  · rw [if_pos hjk.symm, if_pos hjk, ← hjk, Option.map_some]
    cases t.get? j with
    | none => exact congrArg some (Info.empty_meet (view i)).symm
    | some i' => exact congrArg some (hmeet i' i)
  · rw [if_neg (Ne.symm hjk), if_neg hjk]

/-- **The entries under each key are met in their order**, after what the table held. -/
theorem get?_moveInto (hmeet : ∀ i j, view (meet i j) = (view i).meet (view j))
    (hrewrite : ∀ i i', rewrite i = .ok i' → view i' = renamed i)
    (hmove : moveInto (.ok key) rewrite meet entries t = .ok t') (k : κ) :
    (t'.get? k).map view =
      (under key renamed entries k).foldl meetNext ((t.get? k).map view) := by
  induction entries generalizing t with
  | nil =>
    obtain rfl := Except.ok.inj hmove
    rfl
  | cons e entries ih =>
    rw [moveInto_cons] at hmove
    cases hi : rewrite e.2 with
    | error violation =>
      rw [hi] at hmove
      cases hmove
    | ok i =>
      rw [hi] at hmove
      rw [ih hmove, get?_gather hmeet, hrewrite e.2 i hi, under_cons]
      split <;> rfl

/-- **What is stored of infos that fall together**: what is left of them, if it says anything. -/
theorem get?_informed_moveInto (hmeet : ∀ i j, view (meet i j) = (view i).meet (view j))
    (hrewrite : ∀ i i', rewrite i = .ok i' → view i' = renamed i)
    (hempty : ∀ i, isEmpty i = (view i).isEmpty)
    (hmove : moveInto (.ok key) rewrite meet entries .empty = .ok t) (k : κ) :
    ((informed isEmpty t).get? k).map view =
      if (Info.meetAll (under key renamed entries k)).isEmpty then none
      else some (Info.meetAll (under key renamed entries k)) := by
  have hget : (t.get? k).map view = (under key renamed entries k).foldl meetNext none :=
    get?_moveInto hmeet hrewrite hmove k
  rw [foldl_meetNext] at hget
  rw [get?_informed]
  cases hi : t.get? k with
  | none =>
    rw [hi, Option.map_none] at hget
    split at hget
    · next hnone =>
      rw [List.isEmpty_iff.1 hnone]
      rfl
    · cases hget
  | some i =>
    rw [hi, Option.map_some] at hget
    split at hget
    · cases hget
    · rw [← Option.some.inj hget, ← hempty i, Option.filter_some]
      cases isEmpty i <;> rfl

end Gathering

/-! ### The collection in new names -/

/-- No bound is an array of classes without dimensions. -/
def Writable (a : Assumptions) : Prop :=
  (∀ e ∈ a.fields.entries, e.2.fact.isFlatBound = false) ∧
    ∀ e ∈ a.methods.entries, e.2.unconditional.fact.isFlatBound = false

/-- **What is assumed of a member on which others fall**: what is left of all their infos, in the
order in which they are visited.  The member is stored if that says anything. -/
structure StoredAs (visited is : List Info) (stored : Bool) (i : Info) : Prop where
  eq_meetAll : i = Info.meetAll visited
  merged : Info.Merged is i
  stored_iff : stored = true ↔ i.fact ≠ .unknown ∨ i.value ≠ .unknown ∨ i.pure = true

theorem storedAs_of_get? {visited is : List Info} {o : Option Info} (hperm : visited.Perm is)
    (ho : o = if (Info.meetAll visited).isEmpty then none else some (Info.meetAll visited)) :
    StoredAs visited is o.isSome (o.getD .empty) := by
  have heq : o.getD .empty = Info.meetAll visited := by
    rw [ho]
    split
    · next h => exact (of_decide_eq_true h).symm
    · rfl
  refine ⟨heq, ?_, ?_⟩
  · rw [heq]
    exact (Info.merged_meetAll visited).of_perm hperm
  · have hstored : o.isSome = !(Info.meetAll visited).isEmpty := by
      rw [ho]
      split <;> simp_all
    have hiff := Info.isEmpty_iff (Info.meetAll visited)
    rw [heq, hstored, Bool.not_eq_true', Bool.eq_false_iff, ne_eq, hiff]
    simp only [not_and_or, ne_eq, Bool.not_eq_false]

/-- **`r` is `a` in new names**, the entries being visited as those of `b`. -/
structure MergedFrom (a b : Assumptions) (f : ClassId → ClassId) (g : FieldId → FieldId)
    (m : MethodId → MethodId) (r : Assumptions) : Prop where
  fields : ∀ k, StoredAs (under g (·.renamed f g) b.fields.entries k)
    (under g (·.renamed f g) a.fields.entries k) (r.fields.contains k) (r.field k)
  methods : ∀ k, StoredAs (under m (·.unconditional.renamed f g) b.methods.entries k)
    (under m (·.unconditional.renamed f g) a.methods.entries k) (r.methods.contains k)
    (r.method k).unconditional

variable {a b r : Assumptions} {lens since : Lens} {f : ClassId → ClassId} {g : FieldId → FieldId}
  {m : MethodId → MethodId}

theorem Writable.of_perm (hfields : b.fields.entries.Perm a.fields.entries)
    (hmethods : b.methods.entries.Perm a.methods.entries) : b.Writable ↔ a.Writable := by
  unfold Writable
  simp only [hfields.mem_iff, hmethods.mem_iff]

/-- Fields and methods are moved one after the other, each by the names that the lens has for
them. -/
theorem rewrite_eq_bind (hg : lens.fields (some since) = .ok g)
    (hm : lens.methods (some since) = .ok m) : a.rewrite lens since =
      moveInto (.ok g) (·.rewrite lens since) Info.meet a.fields.entries .empty >>= fun fields =>
        moveInto (.ok m) (·.rewrite lens since) MethodInfo.meet a.methods.entries .empty >>=
          fun methods => .ok (ofTables fields methods) := by
  rw [rewrite, hg, hm]
  rfl

theorem rewrite_eq_ok_iff (hg : lens.fields (some since) = .ok g)
    (hm : lens.methods (some since) = .ok m) : a.rewrite lens since = .ok r ↔
      ∃ fields methods,
        moveInto (.ok g) (·.rewrite lens since) Info.meet a.fields.entries .empty = .ok fields ∧
        moveInto (.ok m) (·.rewrite lens since) MethodInfo.meet a.methods.entries .empty =
          .ok methods ∧ ofTables fields methods = r := by
  rw [rewrite_eq_bind hg hm]
  constructor
  · intro hr
    cases hfs : moveInto (.ok g) (·.rewrite lens since) Info.meet a.fields.entries .empty with
    | error violation => rw [hfs] at hr; cases hr
    | ok fields =>
      cases hms : moveInto (.ok m) (·.rewrite lens since) MethodInfo.meet a.methods.entries
          .empty with
      | error violation => rw [hfs, hms] at hr; cases hr
      | ok methods =>
        rw [hfs, hms] at hr
        exact ⟨fields, methods, rfl, rfl, Except.ok.inj hr⟩
  · rintro ⟨fields, methods, hfs, hms, rfl⟩
    rw [hfs, hms]
    rfl

theorem exists_rewrite_iff (hf : lens.types (some since) = .ok f)
    (hg : lens.fields (some since) = .ok g) (hm : lens.methods (some since) = .ok m) :
    (∃ r, a.rewrite lens since = .ok r) ↔ a.Writable := by
  have hfields : (∃ t, moveInto (.ok g) (·.rewrite lens since) Info.meet a.fields.entries .empty =
      .ok t) ↔ ∀ e ∈ a.fields.entries, e.2.fact.isFlatBound = false := by
    rw [exists_moveInto_iff]
    exact forall₂_congr fun e _ => Info.exists_rewrite_iff hf hg e.2
  have hmethods : (∃ t, moveInto (.ok m) (·.rewrite lens since) MethodInfo.meet a.methods.entries
      .empty = .ok t) ↔ ∀ e ∈ a.methods.entries, e.2.unconditional.fact.isFlatBound = false := by
    rw [exists_moveInto_iff]
    exact forall₂_congr fun e _ => MethodInfo.exists_rewrite_iff hf hg e.2
  rw [Writable, ← hfields, ← hmethods]
  simp only [rewrite_eq_ok_iff hg hm]
  constructor
  · rintro ⟨r, fields, methods, hfs, hms, -⟩
    exact ⟨⟨fields, hfs⟩, methods, hms⟩
  · rintro ⟨⟨fields, hfs⟩, methods, hms⟩
    exact ⟨_, fields, methods, hfs, hms, rfl⟩

/-- Between lenses that rest on each other a move is stopped by nothing but a bound that cannot
be written. -/
theorem eq_degenerateArray_of_rewrite (hrests : lens.restsOn since = true) {v : Violation}
    (h : a.rewrite lens since = .error v) : v = .degenerateArray := by
  obtain ⟨f, hf⟩ := Lens.types_of_restsOn hrests
  obtain ⟨g, hg⟩ := Lens.fields_of_restsOn hrests
  obtain ⟨m, hm⟩ := Lens.methods_of_restsOn hrests
  rw [rewrite_eq_bind hg hm] at h
  cases hfs : moveInto (.ok g) (·.rewrite lens since) Info.meet a.fields.entries .empty with
  | error v' =>
    rw [hfs] at h
    cases h
    obtain ⟨e, -, he⟩ := exists_of_moveInto_error hfs
    exact Info.eq_degenerateArray_of_rewrite hf hg he
  | ok fields =>
    cases hms : moveInto (.ok m) (·.rewrite lens since) MethodInfo.meet a.methods.entries
        .empty with
    | ok methods => rw [hfs, hms] at h; cases h
    | error v' =>
      rw [hfs, hms] at h
      cases h
      obtain ⟨e, -, he⟩ := exists_of_moveInto_error hms
      exact Info.eq_degenerateArray_of_rewrite hf hg (MethodInfo.rewrite_eq_error_iff.1 he)

theorem mergedFrom_of_rewrite (hf : lens.types (some since) = .ok f)
    (hg : lens.fields (some since) = .ok g) (hm : lens.methods (some since) = .ok m)
    (hfields : b.fields.entries.Perm a.fields.entries)
    (hmethods : b.methods.entries.Perm a.methods.entries) (hr : b.rewrite lens since = .ok r) :
    MergedFrom a b f g m r := by
  obtain ⟨fields, methods, hfs, hms, rfl⟩ := (rewrite_eq_ok_iff hg hm).1 hr
  constructor
  · intro k
    have hget : ((informed Info.isEmpty fields).get? k).map id = _ :=
      get?_informed_moveInto (fun i j => rfl)
        (fun i i' hi => Info.eq_renamed_of_rewrite hf hg hi) (fun i => rfl) hfs k
    rw [Option.map_id] at hget
    exact storedAs_of_get? (under_perm hfields k) hget
  · intro k
    have hget : ((informed MethodInfo.isEmpty methods).get? k).map (·.unconditional) = _ :=
      get?_informed_moveInto (fun i j => rfl)
        (fun i i' hi => Info.eq_renamed_of_rewrite hf hg (MethodInfo.rewrite_eq_ok_iff.1 hi))
        (fun i => rfl) hms k
    have hstored := storedAs_of_get? (under_perm hmethods k) hget
    show StoredAs _ _ ((informed MethodInfo.isEmpty methods).get? k).isSome
      (((informed MethodInfo.isEmpty methods).get? k).getD .empty).unconditional
    cases hk : (informed MethodInfo.isEmpty methods).get? k with
    | none => rwa [hk] at hstored
    | some i => rwa [hk] at hstored

/-- **Members that fall together under a lens keep what is left of all their infos**, in whatever
order these are visited; and what says nothing in the end is not stored.  `b` lists what `a` lists,
in any order. -/
theorem rewrite_merges (hrests : lens.restsOn since = true)
    (hfields : b.fields.entries.Perm a.fields.entries)
    (hmethods : b.methods.entries.Perm a.methods.entries) :
    ∃ f g m, lens.types (some since) = .ok f ∧ lens.fields (some since) = .ok g ∧
      lens.methods (some since) = .ok m ∧
      ((∃ r, b.rewrite lens since = .ok r) ↔ a.Writable) ∧
      ∀ r, b.rewrite lens since = .ok r → MergedFrom a b f g m r := by
  obtain ⟨f, hf⟩ := Lens.types_of_restsOn hrests
  obtain ⟨g, hg⟩ := Lens.fields_of_restsOn hrests
  obtain ⟨m, hm⟩ := Lens.methods_of_restsOn hrests
  refine ⟨f, g, m, hf, hg, hm, ?_, fun r hr => ?_⟩
  · rw [exists_rewrite_iff hf hg hm, Writable.of_perm hfields hmethods]
  · exact mergedFrom_of_rewrite hf hg hm hfields hmethods hr

/-- A lens under which three fields are one. -/
def threeToOne : Lens :=
  .nested 0 ⟨.empty, .empty, (Table.empty.insert ⟨2⟩ ⟨1⟩).insert ⟨3⟩ ⟨1⟩, none, false⟩ .identity

/-- Two of the fields hold different numbers, and the third one is not null.  One of the numbers
is read without side effects. -/
def threeFields : Assumptions :=
  ofTables (((Table.empty.insert ⟨1⟩ (.of .unknown (.number 3) false .empty)).insert ⟨2⟩
    (.of .nonNull .unknown false .empty)).insert ⟨3⟩ (.of .unknown (.number 4) true .empty)) .empty

/-- The same, listed the other way round. -/
def threeFieldsReversed : Assumptions :=
  ofTables (((Table.empty.insert ⟨3⟩ (.of .unknown (.number 4) true .empty)).insert ⟨2⟩
    (.of .nonNull .unknown false .empty)).insert ⟨1⟩ (.of .unknown (.number 3) false .empty)) .empty

theorem rewrite_merges_threeFields : threeToOne.restsOn .identity = true ∧
    threeFieldsReversed.fields.entries.Perm threeFields.fields.entries ∧
    threeFieldsReversed.methods.entries.Perm threeFields.methods.entries ∧
    ∃ r, threeFieldsReversed.rewrite threeToOne .identity = .ok r ∧
      r.fields.contains ⟨1⟩ = true ∧ r.fields.contains ⟨2⟩ = false ∧
      (r.field ⟨1⟩).fact = .nonNull ∧ (r.field ⟨1⟩).value = .bottom ∧
      (r.field ⟨1⟩).pure = true := by
  have hfields : threeFieldsReversed.fields.entries.Perm threeFields.fields.entries :=
    List.reverse_perm threeFields.fields.entries
  have hmethods : threeFieldsReversed.methods.entries.Perm threeFields.methods.entries :=
    List.Perm.refl []
  have hrests : threeToOne.restsOn .identity = true := rfl
  obtain ⟨f, g, m, hf, hg, -, hiff, hall⟩ := rewrite_merges hrests hfields hmethods
  obtain ⟨r, hr⟩ := hiff.2 ⟨by decide, by decide⟩
  obtain rfl := Except.ok.inj hg
  obtain rfl := Except.ok.inj hf
  have hone := (hall r hr).fields ⟨1⟩
  have htwo := (hall r hr).fields ⟨2⟩
  have hfact : (r.field ⟨1⟩).fact = .nonNull :=
    (hone.merged.fact .nonNull (by decide)).trans (if_pos (by decide))
  refine ⟨hrests, hfields, hmethods, r, hr, ?_, ?_, hfact, hone.merged.value.trans (by decide),
    hone.merged.pure.trans (by decide)⟩
  · exact hone.stored_iff.2 (Or.inl (by rw [hfact]; decide))
  · rw [Bool.eq_false_iff, ne_eq, htwo.stored_iff, htwo.eq_meetAll]
    decide

end Assumptions
end IrAnalysis
