/-
# The order of types

Shapes form a tree over the class hierarchy: a class lies below its parent, an
array of classes below the array of equal dimensions of the parent class, and
every other array directly below the root class.  A reference is a shape with a
nullness, and both are joined and met side by side; types that are no
references are compared among themselves.

| types | join | meet |
| --- | --- | --- |
| two references | nearest common shape, joined nullness | the lower shape, met nullness |
| `null` and a reference | the reference, maybe null | `null` if the reference admits it |
| unrelated references | nearest common shape | `null` if both admit it, else `bottom` |
| primitive and reference | `top` | `bottom` |

All of this is said of normal forms.  An array of no dimensions has no place in
the tree; an operation that has to attach a nullness to one is a violation, and
`try` in the name of a function says that it looks for it.  On proper types the
functions with and without `try` are the same (`tryJoin_of_proper`,
`tryRename_ok`).
-/

import IrAnalysis.AbsVal
import IrAnalysis.Violation

namespace IrAnalysis

namespace Shape

/-- The shape, the one above it, and so on up to the root class. -/
def lineage (h : Hierarchy) : Shape → List Shape
  | cls c => (h.lineage c).map cls
  | array (.cls c) dims => (h.lineage c).map (fun c => array (.cls c) dims) ++ [cls h.root]
  | array (.prim p) dims => [array (.prim p) dims, cls h.root]

/-- `s` is `t` or lies above it. -/
def isAncestor (h : Hierarchy) (s t : Shape) : Bool := (t.lineage h).contains s

/-- The nearest shape above both (or equal to one of them). -/
def commonAncestor (h : Hierarchy) (s t : Shape) : Shape :=
  ((s.lineage h).find? (t.lineage h).contains).getD (cls h.root)

/-- The shape in terms of the new names of the classes. -/
def rename (f : ClassId → ClassId) : Shape → Shape
  | cls c => cls (f c)
  | array (.cls c) dims => array (.cls (f c)) dims
  | array (.prim p) dims => array (.prim p) dims

theorem mem_lineage_self (h : Hierarchy) (s : Shape) : s ∈ s.lineage h := by
  rcases s with c | ⟨p | c, dims⟩
  · exact List.mem_map_of_mem (h.mem_lineage_self c)
  · exact List.mem_cons_self
  · exact List.mem_append_left _
      (List.mem_map_of_mem (f := fun c => array (.cls c) dims) (h.mem_lineage_self c))

theorem root_mem_lineage (h : Hierarchy) (s : Shape) : cls h.root ∈ s.lineage h := by
  rcases s with c | ⟨p | c, dims⟩
  · exact List.mem_map_of_mem (h.root_mem_lineage c)
  · exact List.mem_cons_of_mem _ List.mem_cons_self
  · exact List.mem_append_right _ List.mem_cons_self

end Shape

namespace Ty

/-- The join of two types in normal form. -/
def joinNormal (h : Hierarchy) : Ty → Ty → Ty
  | bottom, b => b
  | a, bottom => a
  | top, _ => top
  | _, top => top
  | prim p, prim q => (p.join q).elim top prim
  | prim _, _ => top
  | _, prim _ => top
  | null, null => null
  | null, ref s _ => ref s .maybe
  | ref s _, null => ref s .maybe
  | ref s m, ref t n => ref (s.commonAncestor h t) (m.join n)

/-- The least type that covers both. -/
def join (h : Hierarchy) (a b : Ty) : Ty := joinNormal h a.normalize b.normalize

/-- The meet of two types in normal form. -/
def meetNormal (h : Hierarchy) : Ty → Ty → Ty
  | top, b => b
  | a, top => a
  | bottom, _ => bottom
  | _, bottom => bottom
  | prim p, prim q => (p.meet q).elim bottom prim
  | prim _, _ => bottom
  | _, prim _ => bottom
  | null, null => null
  | null, ref _ n => if n.admitsNull then null else bottom
  | ref _ n, null => if n.admitsNull then null else bottom
  | ref s m, ref t n =>
    if s.isAncestor h t then ofShape t (m.meet n)
    else if t.isAncestor h s then ofShape s (m.meet n)
    else if (m.meet n).admitsNull then null
    else bottom

/-- The greatest type that both cover. -/
def meet (h : Hierarchy) (a b : Ty) : Ty := meetNormal h a.normalize b.normalize

/-- `a` is covered by `b`. -/
def le (h : Hierarchy) (a b : Ty) : Bool := a.join h b = b.normalize

/-- `a` is covered by `b` and they differ. -/
def lt (h : Hierarchy) (a b : Ty) : Bool := a.normalize ≠ b.normalize && a.le h b

/-- The least type that covers all. -/
def joinAll (h : Hierarchy) (ts : List Ty) : Ty := ts.foldl (join h) bottom

/-- The greatest type that all cover. -/
def meetAll (h : Hierarchy) (ts : List Ty) : Ty := ts.foldl (meet h) top

/-- The reference with another nullness; other types stay as they are. -/
def withNullness (n : Nullness) : Ty → Ty
  | ref s _ => ofShape s n
  | t => t

/-- The type without `null`. -/
def asNonNull : Ty → Ty
  | null => bottom
  | t => t.withNullness .nonNull

/-- The type in terms of the new names of the classes.  A type that names no
class stays exactly as written. -/
def rename (f : ClassId → ClassId) (t : Ty) : Ty :=
  match t with
  | ref (.array (.prim _) _) _ => t
  | ref s n => ofShape (s.rename f) n
  | t => t

/-! ### Looking for arrays of no dimensions -/

/-- A result, unless an array of no dimensions would be used for it. -/
def refuseIf (degenerate : Bool) (t : Ty) : Checked Ty :=
  if degenerate then .error .degenerateArray else .ok t

/-- The join gives an array of no dimensions a nullness. -/
def joinRefuses (a b : Ty) : Bool :=
  match a.normalize, b.normalize with
  | null, t => t.isDegenerate
  | t, null => t.isDegenerate
  | _, _ => false

def tryJoin (h : Hierarchy) (a b : Ty) : Checked Ty := refuseIf (a.joinRefuses b) (a.join h b)

def tryLe (h : Hierarchy) (a b : Ty) : Checked Bool := do
  return (← a.tryJoin h b) = b.normalize

def tryLt (h : Hierarchy) (a b : Ty) : Checked Bool :=
  if a.normalize = b.normalize then .ok false else a.tryLe h b

/-- The join of all types, from the first to the last. -/
def tryJoinAll (h : Hierarchy) (ts : List Ty) : Checked Ty := ts.foldlM (tryJoin h) bottom

def tryArray (e : Element) (dims : Nat) (n : Nullness) : Checked Ty :=
  refuseIf (dims == 0) (ofShape (.array e dims) n)

def tryWithNullness (n : Nullness) (t : Ty) : Checked Ty := refuseIf t.isDegenerate (t.withNullness n)

def tryNonNull (t : Ty) : Checked Ty := refuseIf t.isDegenerate t.asNonNull

/-- The type in terms of the new names; the renaming is asked only for a class
that the type names. -/
def tryRename (r : Renaming) (t : Ty) : Checked Ty :=
  match t with
  | ref (.array (.prim _) _) _ => .ok t
  | ref s n => do refuseIf s.isDegenerate (ofShape (s.rename (← r)) n)
  | t => .ok t

theorem joinRefuses_of_proper {a b : Ty} (ha : a.IsProper) (hb : b.IsProper) :
    a.joinRefuses b = false := by
  unfold joinRefuses
  split
  · exact hb.normalize
  · exact ha.normalize
  · rfl

theorem tryJoin_of_proper (h : Hierarchy) {a b : Ty} (ha : a.IsProper) (hb : b.IsProper) :
    a.tryJoin h b = .ok (a.join h b) := by
  simp [tryJoin, refuseIf, joinRefuses_of_proper ha hb]

theorem tryLe_of_proper (h : Hierarchy) {a b : Ty} (ha : a.IsProper) (hb : b.IsProper) :
    a.tryLe h b = .ok (a.le h b) := by
  simp [tryLe, tryJoin_of_proper h ha hb, le, bind, Except.bind, pure, Except.pure]

theorem tryRename_ok (f : ClassId → ClassId) {t : Ty} (ht : t.IsProper) :
    t.tryRename (.ok f) = .ok (t.rename f) := by
  rcases t with _ | _ | _ | _ | ⟨c | ⟨p | c, dims⟩, n⟩
  case ref.array.cls =>
    have hd : Shape.isDegenerate (.array (.cls c) dims) = false := ht
    simp [tryRename, rename, refuseIf, hd, bind, Except.bind]
  all_goals rfl

end Ty

namespace Operation

/-- The type of what an operation that passes its operand through defines,
from the type of the operand. -/
def outputType (h : Hierarchy) (input : Ty) : Operation → Ty
  | assume .nonNull => input.asNonNull
  | assume (.upperBound bound) => input.meet h bound
  | _ => input

def tryOutputType (h : Hierarchy) (input : Ty) : Operation → Checked Ty
  | assume .nonNull => input.tryNonNull
  | op => .ok (op.outputType h input)

theorem tryOutputType_of_proper (h : Hierarchy) {input : Ty} (hi : input.IsProper)
    (op : Operation) : op.tryOutputType h input = .ok (op.outputType h input) := by
  unfold tryOutputType
  split
  · have hd : input.isDegenerate = false := hi
    simp [Ty.tryNonNull, Ty.refuseIf, hd, outputType]
  · rfl

end Operation

namespace TypeFact

/-- The fact in terms of the new names of the classes. -/
def tryRename (r : Renaming) : TypeFact → Checked TypeFact
  | upperBound t => do return upperBound (← t.tryRename r)
  | fact => .ok fact

/-- The fact in terms of the new names of the classes. -/
def rename (f : ClassId → ClassId) : TypeFact → TypeFact
  | upperBound t => upperBound (t.rename f)
  | fact => fact

end TypeFact

namespace AbsVal

/-- The value in terms of the new names of the fields, which are asked only for
the content of a field. -/
def tryRename (r : Checked (FieldId → FieldId)) : AbsVal → Checked AbsVal
  | field f => do return field ((← r) f)
  | v => .ok v

/-- The value in terms of the new names of the fields. -/
def rename (f : FieldId → FieldId) : AbsVal → AbsVal
  | field g => field (f g)
  | v => v

end AbsVal
end IrAnalysis
