/-
# What may be assumed about a member

An `Info` says what the configuration lets an optimizer assume about a field or
a method: a fact about the type, a value, and whether reading or calling it is
free of side effects; and which rules said so.  An info that assumes nothing
comes from no rule, and that is a field of the type, so there is one empty info.

Two infos about one member are met part by part: facts and values that differ
are given up (a value ends at `bottom`), freedom from side effects is kept if
either has it, and the rules are put together.  Infos are compared without
their rules.
-/

import IrAnalysis.Lens.Lookup
import IrAnalysis.NatSet

namespace IrAnalysis

/-- A rule as written. -/
def ruleName (rule : Nat) : String := s!"rule#{rule}"

/-- The classes, methods and fields that a phase removed. -/
structure Pruned where
  types : List ClassId
  methods : List MethodId
  fields : List FieldId

namespace Pruned

def isEmpty (p : Pruned) : Bool := p.types.isEmpty && p.methods.isEmpty && p.fields.isEmpty

end Pruned

/-- What may be assumed about a member. -/
structure Info where
  fact : TypeFact
  value : AbsVal
  /-- Free of side effects. -/
  pure : Bool
  origins : NatSet
  origins_eq : fact = .unknown → value = .unknown → pure = false → origins = .empty
deriving DecidableEq

namespace Info

/-- Nothing is assumed. -/
def empty : Info := ⟨.unknown, .unknown, false, .empty, fun _ _ _ => rfl⟩

instance : Inhabited Info := ⟨empty⟩

/-- The info with these parts; the rules are dropped when nothing is assumed. -/
def of (fact : TypeFact) (value : AbsVal) (pure : Bool) (origins : NatSet) : Info :=
  if h : fact = .unknown ∧ value = .unknown ∧ pure = false then empty
  else ⟨fact, value, pure, origins, fun hf hv hp => absurd ⟨hf, hv, hp⟩ h⟩

def isEmpty (i : Info) : Bool := i = empty

/-- The same is assumed, by whatever rules. -/
def agrees (i j : Info) : Bool := i.fact = j.fact && i.value = j.value && i.pure = j.pure

/-- What may be assumed by both infos about one member. -/
def meet (i j : Info) : Info :=
  of (i.fact.meet j.fact) (i.value.meet j.value) (i.pure || j.pure) (i.origins.union j.origins)

/-- The info in the names that the layers above `since` give. -/
def rewrite (i : Info) (lens since : Lens) : Checked Info := do
  let fact ← i.fact.tryRename (lens.types since)
  let value ← i.value.tryRename (lens.fields since)
  return of fact value i.pure i.origins

/-- The info without a value read from a removed field. -/
def prune (i : Info) (p : Pruned) : Info :=
  match i.value with
  | .field f => if f ∈ p.fields then of i.fact .unknown i.pure i.origins else i
  | _ => i

theorem of_fact (fact : TypeFact) (value : AbsVal) (pure : Bool) (origins : NatSet) :
    (of fact value pure origins).fact = fact := by
  unfold of
  split
  · next h => exact h.1.symm
  · rfl

theorem of_value (fact : TypeFact) (value : AbsVal) (pure : Bool) (origins : NatSet) :
    (of fact value pure origins).value = value := by
  unfold of
  split
  · next h => exact h.2.1.symm
  · rfl

theorem of_pure (fact : TypeFact) (value : AbsVal) (pure : Bool) (origins : NatSet) :
    (of fact value pure origins).pure = pure := by
  unfold of
  split
  · next h => exact h.2.2.symm
  · rfl

/-- **Assuming nothing is being empty.** -/
theorem isEmpty_iff (i : Info) :
    i.isEmpty = true ↔ i.fact = .unknown ∧ i.value = .unknown ∧ i.pure = false := by
  obtain ⟨fact, value, pure, origins, h⟩ := i
  simp only [isEmpty, decide_eq_true_eq]
  constructor
  · intro e
    cases e
    exact ⟨rfl, rfl, rfl⟩
  · rintro ⟨rfl, rfl, rfl⟩
    obtain rfl := h rfl rfl rfl
    rfl

/-- An info is given by its parts. -/
theorem of_parts (i : Info) : of i.fact i.value i.pure i.origins = i := by
  obtain ⟨fact, value, pure, origins, h⟩ := i
  unfold of
  split
  · next e =>
    obtain ⟨rfl, rfl, rfl⟩ := e
    obtain rfl := h rfl rfl rfl
    rfl
  · rfl

instance : ToString Info where
  toString i :=
    if i.isEmpty then "assume \x7b\x7d"
    else
      let freedom := if i.pure then ", side-effect free" else ""
      s!"assume \x7b type: {i.fact}, value: {i.value}{freedom} \x7d"

/-- Assumptions gathered from rules, before they are made an info. -/
structure Draft where
  fact : TypeFact
  value : AbsVal
  pure : Bool
  origins : NatSet

namespace Draft

/-- Nothing gathered yet. -/
def empty : Draft := ⟨.unknown, .unknown, false, .empty⟩

def addOrigin (d : Draft) (rule : Nat) : Draft := { d with origins := d.origins.insert rule }

def meetFact (d : Draft) (fact : TypeFact) : Draft := { d with fact := d.fact.meet fact }

def meetValue (d : Draft) (value : AbsVal) : Draft := { d with value := d.value.meet value }

def meetPure (d : Draft) (pure : Bool) : Draft := { d with pure := d.pure || pure }

def setPure (d : Draft) : Draft := { d with pure := true }

/-- Gather what another draft gathered. -/
def meet (d e : Draft) : Draft where
  fact := d.fact.meet e.fact
  value := d.value.meet e.value
  pure := d.pure || e.pure
  origins := d.origins.union e.origins

def build (d : Draft) : Info := of d.fact d.value d.pure d.origins

end Draft
end Info

/-- What may be assumed about a method: all rules hold at every call. -/
structure MethodInfo where
  unconditional : Info
deriving DecidableEq

namespace MethodInfo

def empty : MethodInfo := ⟨.empty⟩

def isEmpty (i : MethodInfo) : Bool := i.unconditional.isEmpty

def agrees (i j : MethodInfo) : Bool := i.unconditional.agrees j.unconditional

/-- What holds at a call. -/
def atCall (i : MethodInfo) (call : Instruction) : Checked Info :=
  if call.operation.isInvoke then .ok i.unconditional else .error (.notACall call)

def meet (i j : MethodInfo) : MethodInfo := ⟨i.unconditional.meet j.unconditional⟩

def rewrite (i : MethodInfo) (lens since : Lens) : Checked MethodInfo := do
  return ⟨← i.unconditional.rewrite lens since⟩

def prune (i : MethodInfo) (p : Pruned) : MethodInfo := ⟨i.unconditional.prune p⟩

/-- Assumptions gathered about a method, if any were. -/
structure Draft where
  unconditional : Option Info.Draft

namespace Draft

def empty : Draft := ⟨none⟩

/-- Go on gathering what holds at every call. -/
def update (d : Draft) (f : Info.Draft → Info.Draft) : Draft :=
  ⟨some (f (d.unconditional.getD .empty))⟩

/-- Gather what another draft gathered. -/
def meet (d e : Draft) : Draft :=
  match e.unconditional with
  | some gathered => d.update (·.meet gathered)
  | none => d

def build (d : Draft) : MethodInfo :=
  match d.unconditional with
  | some gathered => ⟨gathered.build⟩
  | none => MethodInfo.empty

end Draft
end MethodInfo
end IrAnalysis
