/-
# Facts about the type of a value

What a rule or an analysis asserts about a value beyond its declared type.
Facts are no lattice: two facts that differ are both given up.
-/

import IrAnalysis.Ty.Basic

namespace IrAnalysis

/-- A fact about the type of a value. -/
inductive TypeFact
  | unknown
  | nonNull
  | upperBound (t : Ty)
deriving DecidableEq

namespace TypeFact

def isUnknown : TypeFact → Bool
  | unknown => true
  | _ => false

/-- Whether a value for which the fact holds may be null. -/
def nullness : TypeFact → Nullness
  | unknown => .maybe
  | nonNull => .nonNull
  | upperBound t => t.nullness

/-- Two facts about one value: what both say, or what one says when the other
says nothing. -/
def meet : TypeFact → TypeFact → TypeFact
  | unknown, b => b
  | a, unknown => a
  | a, b => if a = b then a else unknown

theorem meet_unknown (a : TypeFact) : a.meet unknown = a := by
  cases a <;> rfl

theorem unknown_meet (a : TypeFact) : unknown.meet a = a := by
  cases a <;> rfl

theorem meet_self (a : TypeFact) : a.meet a = a := by
  cases a <;> simp [meet]

theorem meet_comm (a b : TypeFact) : a.meet b = b.meet a := by
  cases a <;> cases b <;> simp only [meet, reduceCtorEq, if_false, if_true]
  · rename_i s t
    by_cases h : s = t
    · simp [h]
    · simp [h, Ne.symm h]

instance : ToString TypeFact where
  toString
    | unknown => "unknown"
    | nonNull => "not-null"
    | upperBound t => s!"<= {t}"

end TypeFact
end IrAnalysis
