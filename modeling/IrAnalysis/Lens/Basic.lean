/-
# Lenses: what became of the items of a program

A phase that renames, merges or moves items leaves a `Layer`: what it sends
each class, method and field to, and which calls it dispatches another way.  A
`Lens` is a stack of layers over the identity.  An item named by older code is
found again by going through the layers from the oldest to the newest.

Two lenses are the same when they were made in one step, not when they do the
same; every nested lens therefore carries a serial number, and `Lens.Run`
hands them out.  A lens `restsOn` those that lie below it in the stack.

| lens | written |
| --- | --- |
| the identity | `IdentityLens` |
| two layers, the newest sending classes and fields | `NestedLens(depth=2, facets=LensFacets(TYPES \| FIELDS))` |
-/

import IrAnalysis.Violation

namespace IrAnalysis

/-- Calls of `methods` that are dispatched by `before` are dispatched by
`after` from now on. -/
structure Redispatch where
  methods : List MethodId
  before : Dispatch
  after : Dispatch

namespace Redispatch

def apply (r : Redispatch) (call : Call) : Call :=
  if call.dispatch = r.before ∧ call.method ∈ r.methods then { call with dispatch := r.after }
  else call

end Redispatch

/-- What one phase does to the items. -/
structure Layer where
  types : Table ClassId ClassId
  methods : Table MethodId MethodId
  fields : Table FieldId FieldId
  redispatch : Option Redispatch
  /-- The layer counts even if it does nothing. -/
  allowsEmpty : Bool

/-- Which sorts of items a layer touches. -/
structure Facets where
  types : Bool
  methods : Bool
  fields : Bool
  dispatch : Bool
deriving DecidableEq

namespace Facets

/-- The facets as a number: 1 for types, 2 for methods, 4 for fields, 8 for
dispatch. -/
def bits (f : Facets) : Nat :=
  f.types.toNat + 2 * f.methods.toNat + 4 * f.fields.toNat + 8 * f.dispatch.toNat

def names (f : Facets) : List String :=
  (if f.types then ["TYPES"] else []) ++ (if f.methods then ["METHODS"] else []) ++
    (if f.fields then ["FIELDS"] else []) ++ (if f.dispatch then ["INVOKE_KINDS"] else [])

instance : ToString Facets where
  toString f :=
    let content := if f.names.isEmpty then "0x0" else " | ".intercalate f.names
    s!"LensFacets({content})"

end Facets

namespace Layer

/-- The layer that does nothing. -/
def empty : Layer := ⟨.empty, .empty, .empty, none, false⟩

/-- Record that `item` goes from `a` to `b`.  Staying in place need not be
recorded, and one item cannot go to two places. -/
def send {α : Type} [DecidableEq α] (item : α → Item) (t : Table α α) (a b : α) :
    Checked (Table α α) :=
  if a = b then .ok t
  else match t.get? a with
    | some b' => if b' = b then .ok t else .error (.mappedTwice (item a))
    | none => .ok (t.insert a b)

def sendType (l : Layer) (a b : ClassId) : Checked Layer := do
  return { l with types := ← send .type l.types a b }

def sendMethod (l : Layer) (a b : MethodId) : Checked Layer := do
  return { l with methods := ← send .method l.methods a b }

def sendField (l : Layer) (a b : FieldId) : Checked Layer := do
  return { l with fields := ← send .field l.fields a b }

def withRedispatch (l : Layer) (r : Redispatch) : Layer := { l with redispatch := some r }

def allowingEmpty (l : Layer) : Layer := { l with allowsEmpty := true }

/-- The layer of a phase that made private methods public: what was called
directly is dispatched virtually. -/
def publicizing (methods : List MethodId) : Layer :=
  empty.withRedispatch ⟨methods, .direct, .virtual⟩

def facets (l : Layer) : Facets where
  types := !l.types.isEmpty
  methods := !l.methods.isEmpty
  fields := !l.fields.isEmpty
  dispatch := l.redispatch.any fun r => !r.methods.isEmpty

/-- The layer does nothing. -/
def isEmpty (l : Layer) : Bool := l.facets = ⟨false, false, false, false⟩

def renameType (l : Layer) (c : ClassId) : ClassId := (l.types.get? c).getD c

def renameMethod (l : Layer) (m : MethodId) : MethodId := (l.methods.get? m).getD m

def renameField (l : Layer) (f : FieldId) : FieldId := (l.fields.get? f).getD f

/-- A call after the phase: the method by its new name, dispatched as that
method now is. -/
def renameCall (l : Layer) (call : Call) : Call :=
  let renamed : Call := { call with method := l.renameMethod call.method }
  match l.redispatch with
  | some r => r.apply renamed
  | none => renamed

end Layer

/-- A stack of layers, the newest first. -/
inductive Lens
  | identity
  | nested (serial : Nat) (layer : Layer) (below : Lens)

namespace Lens

def isIdentity : Lens → Bool
  | identity => true
  | nested .. => false

/-- The number of layers. -/
def depth : Lens → Nat
  | identity => 0
  | nested _ _ below => below.depth + 1

/-- The two were made in one step. -/
def isSame : Lens → Lens → Bool
  | identity, identity => true
  | nested s _ _, nested t _ _ => s == t
  | _, _ => false

/-- `base` is the lens itself or lies below it. -/
def restsOn : Lens → Lens → Bool
  | identity, base => base.isIdentity
  | nested s layer below, base => (nested s layer below).isSame base || below.restsOn base

instance : ToString Lens where
  toString
    | identity => "IdentityLens"
    | nested _ layer below => s!"NestedLens(depth={below.depth + 1}, facets={layer.facets})"

/-- The lenses made so far, by number. -/
structure Run where
  made : Nat

namespace Run

def start : Run := ⟨0⟩

/-- Lay a layer on `below`.  A layer that does nothing is left out, unless it
allows that it is empty. -/
def build (run : Run) (layer : Layer) (below : Lens) : Run × Lens :=
  if layer.isEmpty && !layer.allowsEmpty then (run, below)
  else (⟨run.made + 1⟩, .nested run.made layer below)

/-- Lay the layer of a phase that made methods public on `below`, if there are
any. -/
def publicize (run : Run) (methods : List MethodId) (below : Lens) : Run × Lens :=
  if methods.isEmpty then (run, below)
  else run.build (Layer.publicizing methods).allowingEmpty below

end Run
end Lens
end IrAnalysis
