/-
# Decisions and their reasons

What an optimizer decided about a call or a field, and why.  Items are named as
the symbol table knows them, or by their numbers.
-/

import IrAnalysis.AbsVal
import IrAnalysis.SymbolTable
import IrAnalysis.Ty.Basic

namespace IrAnalysis

/-- A decision about a call or a field. -/
inductive Decision
  /-- The call can be rewritten, keeping null checks of the updater and of the
  holder as said. -/
  | canOptimize (method context : MethodId) (updaterCheck holderCheck : Bool)
  | cannotOptimize (method context : MethodId)
  | canInstrument (f : FieldId)
  | cannotInstrument (f : FieldId)
  | canRemove (f : FieldId)
  | cannotRemove (f : FieldId)

namespace Decision

/-- The decision goes against the optimization. -/
def isFailure : Decision → Bool
  | canOptimize .. | canInstrument _ | canRemove _ => false
  | cannotOptimize .. | cannotInstrument _ | cannotRemove _ => true

/-- The null checks that stay. -/
def checks : Bool → Bool → String
  | true, true => " with two null-checks"
  | true, false => " with updater null-check"
  | false, true => " with holder null-check"
  | false, false => ""

/-- The decision as reported. -/
def text (names : SymbolTable) : Decision → String
  | canOptimize m c u h => s!"Can optimize {simple m}{checks u h} in {full c}"
  | cannotOptimize m c => s!"Cannot optimize {simple m} in {full c}"
  | canInstrument f => s!"Can instrument {field f}"
  | cannotInstrument f => s!"Cannot instrument {field f}"
  | canRemove f => s!"Can remove {field f}"
  | cannotRemove f => s!"Cannot remove {field f}"
where
  simple (m : MethodId) : String := (names.simpleMethodName? m).getD (toString m)
  full (m : MethodId) : String := (names.methodName? m).getD (toString m)
  field (f : FieldId) : String := (names.fieldName? f).getD (toString f)

end Decision

/-- Why a decision was taken. -/
inductive Reason
  | none
  | notSupported
  | updaterNotInstrumented
  | writtenOutsideInitializer
  | multipleWrites
  | updaterFromPhi
  | holderFromPhi
  | fieldTypeFromPhi
  | valueFromPhi
  | holderNotConstant
  | fieldTypeNotConstant
  | holderOutsideClass
  | notFromStaticCall
  | notFromNewUpdater
  | fieldNameNotConstant
  | noSuchField
  | fieldNotVolatile
  | stillUsed
  | unclearUpdater (v : AbsVal)
  | wrongHolderType (actual expected : Ty)
  | wrongValueType (actual expected : Ty)

namespace Reason

/-- No reason is given, and none is reported. -/
def isNone : Reason → Bool
  | none => true
  | _ => false

def text : Reason → String
  | none => ""
  | notSupported => "not supported"
  | updaterNotInstrumented => "uses un-instrumented updater field"
  | writtenOutsideInitializer => "written outside class initializer"
  | multipleWrites => "multiple writes"
  | updaterFromPhi => "updater initialized by phi function"
  | holderFromPhi => "holder initialized by phi function"
  | fieldTypeFromPhi => "field type initialized by phi function"
  | valueFromPhi => "value initialized by phi function"
  | holderNotConstant => "holder is not a constant class"
  | fieldTypeNotConstant => "field type is not a constant class"
  | holderOutsideClass => "holder refers to another class"
  | notFromStaticCall => "not initialized by static call"
  | notFromNewUpdater => "updater not initialized by newUpdater"
  | fieldNameNotConstant => "field name is not a constant string"
  | noSuchField => "newUpdater does not resolve to a field"
  | fieldNotVolatile => "reflected field is not volatile"
  | stillUsed => "not unused"
  | unclearUpdater v => s!"updater is statically {v}"
  | wrongHolderType actual expected => s!"holder type {actual} is not {expected}"
  | wrongValueType actual expected => s!"value type {actual} is not {expected}"

end Reason
end IrAnalysis
