/-
# Forgetting what was removed

A phase removes classes, methods and fields, and what was assumed about them is forgotten.  An
assumption refers to a removed item if it is about a removed member, if it knows a value that is
read from a removed field, or if it bounds a type by a removed class.  The first two are forgotten,
and an info that says nothing more without such a value is no longer stored; what refers to nothing
removed stays as it was, and nothing is added (`Assumptions.PrunedTo`).

A bound is left as it is.  So nothing that is stored refers to a removed item exactly if no member
that stays was bounded by a removed class (`Assumptions.prune_forgets`).
-/

import IrAnalysis.Program
import IrAnalysis.Proofs.Members

namespace IrAnalysis

variable {p : Pruned}

/-- The fact bounds a type by a removed class, or by an array of such. -/
def TypeFact.namesRemoved (p : Pruned) : TypeFact → Bool
  | .upperBound t => t.classes.any (· ∈ p.types)
  | _ => false

/-- The value is read from a removed field. -/
def AbsVal.readsRemoved (p : Pruned) : AbsVal → Bool
  | .field f => f ∈ p.fields
  | _ => false

def Member.isRemoved (p : Pruned) : Member → Bool
  | .field f => f ∈ p.fields
  | .method m => m ∈ p.methods

theorem Pruned.isEmpty_iff :
    p.isEmpty = true ↔ p.types = [] ∧ p.methods = [] ∧ p.fields = [] := by
  simp only [Pruned.isEmpty, Bool.and_eq_true, List.isEmpty_iff, and_assoc]

/-- What is found in a table when some keys are taken out and the other contents are changed. -/
theorem Table.getD_without {κ α : Type} [DecidableEq κ] {t : Table κ α} {gone : List κ}
    {change : α → α} {i : α} (hi : change i = i) (k : κ) :
    ((t.filterMap fun k j => if k ∈ gone then none else some (change j)).get? k).getD i =
      if k ∈ gone then i else change ((t.get? k).getD i) := by
  rw [Table.get?_filterMap]
  by_cases hk : k ∈ gone
  · cases t.get? k <;> simp [hk]
  · cases t.get? k <;> simp [hk, hi]

/-- If every entry stays as it is, so does the table. -/
theorem Table.filterMap_self {κ α : Type} {t : Table κ α} {f : κ → α → Option α}
    (h : ∀ e ∈ t.entries, f e.1 e.2 = some e.2) : t.filterMap f = t := by
  refine (Table.mk.injEq ..).mpr ?_
  refine (List.filterMap_congr fun e he => ?_).trans List.filterMap_some
  rw [h e he]
  rfl

namespace Info

variable {i : Info}

theorem prune_eq (p : Pruned) (i : Info) : i.prune p =
    if i.value.readsRemoved p then of i.fact .unknown i.pure i.origins else i := by
  unfold prune AbsVal.readsRemoved
  cases i.value with
  | field f => simp only [decide_eq_true_eq]
  | bottom | unknown | null | number | string => rfl

theorem prune_of_not_reads (h : i.value.readsRemoved p = false) : i.prune p = i := by
  rw [prune_eq, h]
  rfl

theorem prune_fact (p : Pruned) (i : Info) : (i.prune p).fact = i.fact := by
  rw [prune_eq]
  split
  · exact of_fact ..
  · rfl

theorem prune_value (p : Pruned) (i : Info) :
    (i.prune p).value = if i.value.readsRemoved p then .unknown else i.value := by
  rw [prune_eq]
  split
  · exact of_value ..
  · rfl

/-- What is pruned knows no value that is read from a removed field. -/
theorem readsRemoved_prune (p : Pruned) (i : Info) : (i.prune p).value.readsRemoved p = false := by
  rw [prune_value]
  split
  · rfl
  · next h => exact Bool.eq_false_iff.2 h

end Info

namespace Assumptions

variable {a : Assumptions}

/-- Nothing that is stored refers to a removed item. -/
structure FreeOf (p : Pruned) (a : Assumptions) : Prop where
  member : ∀ x i, a.info? x = some i → x.isRemoved p = false
  value : ∀ x i, a.info? x = some i → i.value.readsRemoved p = false
  fact : ∀ x i, a.info? x = some i → i.fact.namesRemoved p = false

/-- **`r` is what is left of `a`** without removed members and without values that are read from
removed fields. -/
structure PrunedTo (p : Pruned) (a r : Assumptions) : Prop where
  member : ∀ x i, r.info? x = some i → x.isRemoved p = false
  value : ∀ x i, r.info? x = some i → i.value.readsRemoved p = false
  /-- Whatever does not read a removed field stays. -/
  kept : ∀ x i, a.info? x = some i → x.isRemoved p = false → i.value.readsRemoved p = false →
    r.info? x = some i
  /-- Where a value is forgotten the rest stays, if it says anything. -/
  left : ∀ x i, a.info? x = some i → x.isRemoved p = false → i.value.readsRemoved p = true →
    r.info? x = if i.fact = .unknown ∧ i.pure = false then none
      else some (.of i.fact .unknown i.pure i.origins)
  /-- Nothing is added. -/
  stored : ∀ x i, r.info? x = some i → ∃ j, a.info? x = some j ∧ i.fact = j.fact

/-- **What may be assumed of a member afterwards.** -/
theorem info_prune (a : Assumptions) (p : Pruned) (x : Member) :
    (a.prune p).info x = if x.isRemoved p then .empty else (a.info x).prune p := by
  cases x with
  | field f =>
    rw [info, prune, field_ofTables, Table.getD_without (i := Info.empty) rfl]
    simp only [Member.isRemoved, decide_eq_true_eq]
    rfl
  | method m =>
    rw [info, prune, method_ofTables, Table.getD_without (i := MethodInfo.empty) rfl]
    simp only [Member.isRemoved, decide_eq_true_eq]
    split <;> rfl

/-- What is stored of a member that is not removed. -/
theorem info?_prune {x : Member} {i : Info} (hx : x.isRemoved p = false)
    (hi : a.info? x = some i) :
    (a.prune p).info? x = if (i.prune p).isEmpty then none else some (i.prune p) := by
  rw [info?_eq, info_prune, hx, info_eq a, hi]
  rfl

/-- What is stored afterwards was stored before. -/
theorem exists_of_info?_prune {x : Member} {i : Info} (hi : (a.prune p).info? x = some i) :
    x.isRemoved p = false ∧ ∃ j, a.info? x = some j ∧ i = j.prune p := by
  have hinfo : (a.prune p).info x = i := by rw [info_eq, hi, Option.getD_some]
  have hsays := not_isEmpty_of_info? hi
  rw [info_prune] at hinfo
  cases hx : x.isRemoved p with
  | true =>
    rw [hx, if_pos rfl] at hinfo
    rw [← hinfo] at hsays
    cases hsays
  | false =>
    rw [hx, if_neg Bool.false_ne_true] at hinfo
    refine ⟨rfl, ?_⟩
    cases hj : a.info? x with
    | some j =>
      rw [info_eq, hj, Option.getD_some] at hinfo
      exact ⟨j, rfl, hinfo.symm⟩
    | none =>
      rw [info_eq, hj, Option.getD_none] at hinfo
      rw [← hinfo] at hsays
      cases hsays

theorem prunedTo_prune (a : Assumptions) (p : Pruned) : PrunedTo p a (a.prune p) where
  member x i hi := (exists_of_info?_prune hi).1
  value x i hi := by
    obtain ⟨-, j, -, rfl⟩ := exists_of_info?_prune hi
    exact j.readsRemoved_prune p
  kept x i hi hx hr := by
    rw [info?_prune hx hi, Info.prune_of_not_reads hr, not_isEmpty_of_info? hi]
    rfl
  left x i hi hx hr := by
    rw [info?_prune hx hi, i.prune_eq p, if_pos hr]
    refine if_congr ?_ rfl rfl
    rw [Info.isEmpty_iff, Info.of_fact, Info.of_value, Info.of_pure, eq_self, true_and]
  stored x i hi := by
    obtain ⟨-, j, hj, rfl⟩ := exists_of_info?_prune hi
    exact ⟨j, hj, j.prune_fact p⟩

/-! ### With nothing removed -/

theorem informed_self {κ α : Type} {isEmpty : α → Bool} {t : Table κ α}
    (h : ∀ e ∈ t.entries, isEmpty e.2 = false) : informed isEmpty t = t :=
  Table.filterMap_self fun e he => if_neg (Bool.eq_false_iff.1 (h e he))

theorem ofTables_self (a : Assumptions) : ofTables a.fields a.methods = a :=
  (Assumptions.mk.injEq ..).mpr
    ⟨informed_self a.fields_informed, informed_self a.methods_informed⟩

theorem prune_of_isEmpty (h : p.isEmpty = true) (a : Assumptions) : a.prune p = a := by
  obtain ⟨types, methods, fields⟩ := p
  obtain ⟨-, rfl, rfl⟩ := Pruned.isEmpty_iff.1 h
  have hinfo : ∀ i : Info, i.prune ⟨types, [], []⟩ = i := by
    intro i
    refine Info.prune_of_not_reads ?_
    cases i.value <;> rfl
  have hfields : (a.fields.filterMap fun f i =>
      if f ∈ [] then none else some (i.prune ⟨types, [], []⟩)) = a.fields :=
    Table.filterMap_self fun e _ => congrArg some (hinfo e.2)
  have hmethods : (a.methods.filterMap fun m i =>
      if m ∈ [] then none else some (i.prune ⟨types, [], []⟩)) = a.methods :=
    Table.filterMap_self fun e _ => congrArg (some ∘ MethodInfo.mk) (hinfo e.2.unconditional)
  rw [prune, hfields, hmethods, ofTables_self]

/-- **What is pruned refers to no removed member and to no removed field**, whatever refers to
nothing removed stays, and nothing is added.  It refers to no removed class either exactly if no
member that stays was bounded by one.  A program forgets in the same way. -/
theorem prune_forgets (a : Assumptions) (p : Pruned) :
    PrunedTo p a (a.prune p) ∧
      ((a.prune p).FreeOf p ↔ ∀ x i, a.info? x = some i → x.isRemoved p = false →
        i.fact.namesRemoved p = false) ∧
      ∀ s : Program, s.prune p = { s with assumptions := s.assumptions.prune p } := by
  have hpruned := prunedTo_prune a p
  refine ⟨hpruned, ⟨fun hfree x i hi hx => ?_, fun hbounds => ⟨hpruned.member, hpruned.value, ?_⟩⟩,
    fun s => ?_⟩
  · have hstored := info?_prune hx hi
    cases hempty : (i.prune p).isEmpty with
    | true =>
      rw [← i.prune_fact p, ((Info.isEmpty_iff _).1 hempty).1]
      rfl
    | false =>
      rw [hempty] at hstored
      rw [← i.prune_fact p]
      exact hfree.fact x _ hstored
  · intro x i hi
    obtain ⟨j, hj, hfact⟩ := hpruned.stored x i hi
    rw [hfact]
    exact hbounds x j hj (hpruned.member x i hi)
  · unfold Program.prune
    split
    · next h => rw [prune_of_isEmpty h]
    · rfl

/-- A field that holds an instance of a class. -/
def boundedField : Assumptions :=
  ofTables (Table.empty.insert ⟨1⟩ (.of (.upperBound (.ofClass ⟨1⟩ .maybe)) .unknown false .empty))
    .empty

/-- **A bound outlives its class.** -/
theorem prune_keeps_bound : ¬ (boundedField.prune ⟨[⟨1⟩], [], []⟩).FreeOf ⟨[⟨1⟩], [], []⟩ :=
  fun h => Bool.false_ne_true (h.fact (.field ⟨1⟩) _ rfl).symm

end Assumptions
end IrAnalysis
