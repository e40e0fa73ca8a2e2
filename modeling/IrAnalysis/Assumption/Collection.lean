/-
# Assumptions about a whole program

Fields and methods with what may be assumed about them, named as under one
lens.  Only members about which something is assumed are listed, which is a
field of the type.  When a new lens is published the collection is moved to its
names; members that fall together there keep the meet of their infos.
-/

import IrAnalysis.Assumption.Info

namespace IrAnalysis

/-- What may be assumed about the members of a program. -/
structure Assumptions where
  fields : Table FieldId Info
  methods : Table MethodId MethodInfo
  fields_informed : ∀ e ∈ fields.entries, e.2.isEmpty = false
  methods_informed : ∀ e ∈ methods.entries, e.2.isEmpty = false

namespace Assumptions

/-- The infos that say something. -/
def informed {κ α : Type} (isEmpty : α → Bool) (t : Table κ α) : Table κ α :=
  t.filterMap fun _ i => if isEmpty i then none else some i

theorem not_isEmpty_of_informed {κ α : Type} {isEmpty : α → Bool} {t : Table κ α} :
    ∀ e ∈ (informed isEmpty t).entries, isEmpty e.2 = false := by
  intro e he
  obtain ⟨⟨k, i⟩, _, hi⟩ := List.mem_filterMap.1 he
  cases hb : isEmpty i with
  | true => simp [hb] at hi
  | false =>
    simp only [hb, Bool.false_eq_true, if_false, Option.map_some, Option.some.injEq] at hi
    rw [← hi]
    exact hb

theorem get?_informed {κ α : Type} [DecidableEq κ] {isEmpty : α → Bool} (t : Table κ α) (k : κ) :
    (informed isEmpty t).get? k = (t.get? k).filter fun i => !isEmpty i := by
  rw [informed, Table.get?_filterMap]
  cases t.get? k with
  | none => rfl
  | some i => cases hi : isEmpty i <;> simp [hi, Option.filter]

/-- The members of the tables about which something is assumed. -/
def ofTables (fields : Table FieldId Info) (methods : Table MethodId MethodInfo) :
    Assumptions where
  fields := informed Info.isEmpty fields
  methods := informed MethodInfo.isEmpty methods
  fields_informed := not_isEmpty_of_informed
  methods_informed := not_isEmpty_of_informed

def empty : Assumptions := ofTables .empty .empty

def isEmpty (a : Assumptions) : Bool := a.fields.isEmpty && a.methods.isEmpty

/-- The same is assumed about the same members, by whatever rules. -/
def agrees (a b : Assumptions) : Bool :=
  a.fields.agrees Info.agrees b.fields && a.methods.agrees MethodInfo.agrees b.methods

def field (a : Assumptions) (f : FieldId) : Info := (a.fields.get? f).getD .empty

def method (a : Assumptions) (m : MethodId) : MethodInfo := (a.methods.get? m).getD .empty

/-- Reading the field is free of side effects. -/
def isPureField (a : Assumptions) (f : FieldId) : Bool := (a.field f).pure

/-- Calling the method is free of side effects. -/
def isPureMethod (a : Assumptions) (m : MethodId) : Bool := (a.method m).unconditional.pure

/-- What holds at a call that names `resolved`, and that runs `target` if this
is known to be the one method it can reach. -/
def atCall (a : Assumptions) (call : Instruction) (resolved : MethodId)
    (target : Option MethodId) : Checked Info := do
  let info ← (a.method resolved).atCall call
  match target with
  | none => return info
  | some t =>
    if t = resolved then return info
    else return info.meet (← (a.method t).atCall call)

/-- Put an info under a key beside what is there. -/
def gather {κ α : Type} [DecidableEq κ] (meet : α → α → α) (t : Table κ α) (k : κ) (i : α) :
    Table κ α :=
  t.alter k fun
    | some j => meet j i
    | none => i

/-- Move entries to new keys and rewrite their infos, one after the other. -/
def moveEntries {κ α : Type} [DecidableEq κ] (key : Checked (κ → κ)) (rewrite : α → Checked α)
    (meet : α → α → α) (entries : List (κ × α)) : Checked (Table κ α) :=
  entries.foldlM (fun t e => do
    let info ← rewrite e.2
    return gather meet t ((← key) e.1) info) .empty

/-- The collection in the names of `lens`, given that it is in those of `since`. -/
def rewrite (a : Assumptions) (lens since : Lens) : Checked Assumptions := do
  let fields ← moveEntries (lens.fields since) (·.rewrite lens since) Info.meet a.fields.entries
  let methods ←
    moveEntries (lens.methods since) (·.rewrite lens since) MethodInfo.meet a.methods.entries
  return ofTables fields methods

/-- The collection without removed members and without values read from removed
fields. -/
def prune (a : Assumptions) (p : Pruned) : Assumptions :=
  ofTables
    (a.fields.filterMap fun f i => if f ∈ p.fields then none else some (i.prune p))
    (a.methods.filterMap fun m i => if m ∈ p.methods then none else some (i.prune p))

/-- Assumptions gathered member by member. -/
structure Draft where
  fields : Table FieldId Info.Draft
  methods : Table MethodId MethodInfo.Draft

namespace Draft

def empty : Draft := ⟨.empty, .empty⟩

def isEmpty (d : Draft) : Bool := d.fields.isEmpty && d.methods.isEmpty

/-- Go on gathering about a field. -/
def updateField (d : Draft) (f : FieldId) (g : Info.Draft → Info.Draft) : Draft :=
  { d with fields := d.fields.alter f fun o => g (o.getD .empty) }

/-- Go on gathering about a method. -/
def updateMethod (d : Draft) (m : MethodId) (g : Info.Draft → Info.Draft) : Draft :=
  { d with methods := d.methods.alter m fun o => (o.getD .empty).update g }

def build (d : Draft) : Assumptions :=
  ofTables (d.fields.filterMap fun _ i => some i.build) (d.methods.filterMap fun _ i => some i.build)

end Draft
end Assumptions
end IrAnalysis
