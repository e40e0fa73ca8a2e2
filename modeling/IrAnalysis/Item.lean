/-
# Items: the classes, methods and fields of a program

An item is known by its number alone; what the number stands for is kept by
`IrAnalysis.SymbolTable`.

| item | written |
| --- | --- |
| class | `T3` |
| method | `M3` |
| field | `F3` |
| parameter 1 of a method | `M3#arg1` |
-/

namespace IrAnalysis

/-- A class or an interface. -/
structure ClassId where
  index : Nat
deriving DecidableEq

/-- A method. -/
structure MethodId where
  index : Nat
deriving DecidableEq

/-- A field. -/
structure FieldId where
  index : Nat
deriving DecidableEq

/-- One parameter of a method, counted from zero with the receiver first. -/
structure Parameter where
  method : MethodId
  position : Nat
deriving DecidableEq

instance : ToString ClassId := ⟨fun c => s!"T{c.index}"⟩

instance : ToString MethodId := ⟨fun m => s!"M{m.index}"⟩

instance : ToString FieldId := ⟨fun f => s!"F{f.index}"⟩

instance : ToString Parameter := ⟨fun p => s!"{p.method}#arg{p.position}"⟩

/-- How a call finds the method that it runs. -/
inductive Dispatch
  | direct
  | virtual
  | static
  | interface
  | super
deriving DecidableEq

namespace Dispatch

/-- The five ways of dispatch. -/
def all : List Dispatch := [direct, virtual, static, interface, super]

theorem mem_all (d : Dispatch) : d ∈ all := by
  cases d <;> decide

def name : Dispatch → String
  | direct => "direct"
  | virtual => "virtual"
  | static => "static"
  | interface => "interface"
  | super => "super"

instance : ToString Dispatch := ⟨name⟩

end Dispatch

/-- A call as written: the method named and the way it is dispatched. -/
structure Call where
  method : MethodId
  dispatch : Dispatch
deriving DecidableEq

instance : ToString Call := ⟨fun c => s!"invoke-{c.dispatch} {c.method}"⟩

end IrAnalysis
