/-
# Nullness: may a reference be null

Four states in a diamond, `never` below the two definite ones and `maybe`
above them.  `never` says that there is no reference at all: it is what two
definite states that disagree have in common.

| state | written |
| --- | --- |
| `null` | `@Null` |
| `nonNull` | `@NotNull` |
| `maybe` | `@Nullable` |
| `never` | `@Bottom` |
-/

namespace IrAnalysis

/-- What is known about a reference being null. -/
inductive Nullness
  | null
  | nonNull
  | maybe
  | never
deriving DecidableEq

namespace Nullness

/-- The four states. -/
def all : List Nullness := [null, nonNull, maybe, never]

theorem mem_all (a : Nullness) : a ∈ all := by
  cases a <;> decide

/-- The reference may be null. -/
def admitsNull : Nullness → Bool
  | null | maybe => true
  | nonNull | never => false

/-- The least state that covers both. -/
def join : Nullness → Nullness → Nullness
  | never, b => b
  | a, never => a
  | a, b => if a = b then a else maybe

/-- The greatest state that both cover. -/
def meet : Nullness → Nullness → Nullness
  | maybe, b => b
  | a, maybe => a
  | a, b => if a = b then a else never

/-- `a` is covered by `b`. -/
def le (a b : Nullness) : Bool := join a b = b

theorem join_comm (a b : Nullness) : join a b = join b a := by
  cases a <;> cases b <;> rfl

theorem meet_comm (a b : Nullness) : meet a b = meet b a := by
  cases a <;> cases b <;> rfl

theorem join_self (a : Nullness) : join a a = a := by
  cases a <;> rfl

theorem meet_self (a : Nullness) : meet a a = a := by
  cases a <;> rfl

instance : ToString Nullness where
  toString
    | null => "@Null"
    | nonNull => "@NotNull"
    | maybe => "@Nullable"
    | never => "@Bottom"

end Nullness
end IrAnalysis
