/-
# What is assumed about a member

Fields and methods are kept in two tables, and what is stored of a method wraps the one info that
holds at all its calls.  A `Member` is either of them, and a collection and a draft are looked at
member by member: what is stored (`Assumptions.info?`), what may be assumed (`Assumptions.info`) and
what has been gathered so far (`Assumptions.Draft.about`).  A member is stored exactly if something
may be assumed about it (`Assumptions.info?_eq`).
-/

import IrAnalysis.Assumption.Collection
import Mathlib.Data.List.Nodup

namespace IrAnalysis

/-- A field or a method. -/
inductive Member
  | field (f : FieldId)
  | method (m : MethodId)
deriving DecidableEq

/-- Tables with the same contents list the same entries. -/
theorem Table.entries_perm {κ α : Type} [DecidableEq κ] {t u : Table κ α}
    (h : ∀ k, t.get? k = u.get? k) : t.entries.Perm u.entries := by
  refine (List.perm_ext_iff_of_nodup (List.Nodup.of_map _ t.keys_nodup)
    (List.Nodup.of_map _ u.keys_nodup)).2 ?_
  rintro ⟨k, a⟩
  rw [mem_entries, mem_entries, h]

namespace MethodInfo.Draft

/-- What was gathered, if anything was. -/
def gathered (d : Draft) : Info.Draft := d.unconditional.getD .empty

theorem build_unconditional (d : Draft) : d.build.unconditional = d.gathered.build := by
  obtain ⟨_ | gathered⟩ := d <;> rfl

end MethodInfo.Draft

namespace Assumptions

variable {a b : Assumptions}

/-- The info that is stored of a member. -/
def info? (a : Assumptions) : Member → Option Info
  | .field f => a.fields.get? f
  | .method m => (a.methods.get? m).map (·.unconditional)

/-- What may be assumed about a member. -/
def info (a : Assumptions) : Member → Info
  | .field f => a.field f
  | .method m => (a.method m).unconditional

theorem info_eq (a : Assumptions) (x : Member) : a.info x = (a.info? x).getD .empty := by
  cases x with
  | field f => rfl
  | method m =>
    show ((a.methods.get? m).getD .empty).unconditional =
      ((a.methods.get? m).map (·.unconditional)).getD .empty
    cases a.methods.get? m <;> rfl

/-- What is stored says something. -/
theorem not_isEmpty_of_info? {x : Member} {i : Info} (h : a.info? x = some i) :
    i.isEmpty = false := by
  cases x with
  | field f => exact a.fields_informed _ ((Table.mem_entries ..).2 h)
  | method m =>
    obtain ⟨j, hj, rfl⟩ := Option.map_eq_some_iff.1 h
    exact a.methods_informed _ ((Table.mem_entries ..).2 hj)

/-- **A member is stored exactly if something may be assumed about it.** -/
theorem info?_eq (a : Assumptions) (x : Member) :
    a.info? x = if (a.info x).isEmpty then none else some (a.info x) := by
  rw [info_eq]
  cases h : a.info? x with
  | none => rfl
  | some i =>
    rw [Option.getD_some, not_isEmpty_of_info? h]
    rfl

/-- Collections under which the same may be assumed, by the same rules, list the same entries. -/
theorem entries_perm (h : ∀ x, a.info? x = b.info? x) :
    a.fields.entries.Perm b.fields.entries ∧ a.methods.entries.Perm b.methods.entries := by
  have hinjective : Function.Injective MethodInfo.unconditional := by
    rintro ⟨i⟩ ⟨j⟩ rfl
    rfl
  exact ⟨Table.entries_perm fun f => h (.field f),
    Table.entries_perm fun m => Option.map_injective hinjective (h (.method m))⟩

/-- What says nothing may as well not be stored. -/
theorem getD_informed {κ α : Type} [DecidableEq κ] {isEmpty : α → Bool} {nothing : α}
    (hnothing : ∀ i, isEmpty i = true → i = nothing) (t : Table κ α) (k : κ) :
    ((informed isEmpty t).get? k).getD nothing = (t.get? k).getD nothing := by
  rw [get?_informed]
  cases t.get? k with
  | none => rfl
  | some i =>
    rw [Option.filter_some]
    cases hi : isEmpty i with
    | true => exact (hnothing i hi).symm
    | false => rfl

theorem field_ofTables (fields : Table FieldId Info) (methods : Table MethodId MethodInfo)
    (f : FieldId) : (ofTables fields methods).field f = (fields.get? f).getD .empty :=
  getD_informed (fun _ hi => of_decide_eq_true hi) fields f

theorem method_ofTables (fields : Table FieldId Info) (methods : Table MethodId MethodInfo)
    (m : MethodId) : (ofTables fields methods).method m = (methods.get? m).getD .empty :=
  getD_informed (fun _ hi => congrArg MethodInfo.mk (of_decide_eq_true hi)) methods m

/-- What was gathered about a member. -/
def Draft.about (d : Draft) : Member → Info.Draft
  | .field f => (d.fields.get? f).getD .empty
  | .method m => ((d.methods.get? m).getD .empty).gathered

/-- **What may be assumed is what was gathered.** -/
theorem Draft.info_build (d : Draft) (x : Member) : d.build.info x = (d.about x).build := by
  cases x with
  | field f =>
    rw [info, build, field_ofTables, Table.get?_filterMap, about]
    cases d.fields.get? f <;> rfl
  | method m =>
    rw [info, build, method_ofTables, Table.get?_filterMap, about]
    cases d.methods.get? m with
    | none => rfl
    | some e => exact e.build_unconditional

end Assumptions
end IrAnalysis
