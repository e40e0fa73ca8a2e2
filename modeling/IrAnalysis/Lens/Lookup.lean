/-
# Looking items up through a lens

A look-up goes through the layers above a lens `since` that the code was
already moved to, or through all layers when there is none, from the oldest to
the newest.  Only layers that touch the sort of item looked up are gone
through.  When `since` lies nowhere below the lens, the look-up is a violation.

The layers are found once for all items: a look-up is a function of the item,
or the violation.
-/

import IrAnalysis.Lens.Basic
import IrAnalysis.Ty.Lattice

namespace IrAnalysis
namespace Lens

/-- The layers above `since` for which `keep` holds, the oldest first, followed
by `newer`. -/
def layersSince (since : Option Lens) (keep : Layer → Bool) :
    Lens → List Layer → Checked (List Layer)
  | identity, newer => if since.all isIdentity then .ok newer else .error .notAncestor
  | nested serial layer below, newer =>
    if since.any (nested serial layer below).isSame then .ok newer
    else below.layersSince since keep (if keep layer then layer :: newer else newer)

/-- What an item becomes, layer by layer, where `keep` says which layers touch
items of its sort. -/
def through {α : Type} (lens : Lens) (since : Option Lens) (keep : Layer → Bool)
    (step : Layer → α → α) : Checked (α → α) := do
  let layers ← lens.layersSince since keep []
  return fun a => layers.foldl (fun a layer => step layer a) a

/-- What becomes of classes. -/
def types (lens : Lens) (since : Option Lens) : Renaming :=
  lens.through since (fun l => l.facets.types) Layer.renameType

/-- What becomes of methods. -/
def methods (lens : Lens) (since : Option Lens) : Checked (MethodId → MethodId) :=
  lens.through since (fun l => l.facets.methods) Layer.renameMethod

/-- What becomes of fields. -/
def fields (lens : Lens) (since : Option Lens) : Checked (FieldId → FieldId) :=
  lens.through since (fun l => l.facets.fields) Layer.renameField

/-- What becomes of calls. -/
def calls (lens : Lens) (since : Option Lens) : Checked (Call → Call) :=
  lens.through since (fun l => l.facets.methods || l.facets.dispatch) Layer.renameCall

/-- A type through all layers. -/
def rewriteType (lens : Lens) (t : Ty) : Checked Ty := t.tryRename (lens.types none)

end Lens
end IrAnalysis
