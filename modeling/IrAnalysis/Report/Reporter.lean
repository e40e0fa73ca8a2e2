/-
# Reporting decisions

A reporter that is enabled keeps a line for each decision, marked by an `X` if
it goes against the optimization and followed by the reason if there is one.
-/

import IrAnalysis.Report.Decision

namespace IrAnalysis

/-- A reported decision. -/
structure Diagnostic where
  failure : Bool
  message : String
deriving DecidableEq

/-- A record of decisions. -/
structure Reporter where
  enabled : Bool
  log : List Diagnostic
deriving DecidableEq

namespace Reporter

def start (enabled : Bool) : Reporter := ⟨enabled, []⟩

/-- The line for a decision. -/
def line (names : SymbolTable) (d : Decision) (r : Reason) : String :=
  let mark := if d.isFailure then "X " else "  "
  let ending := if r.isNone then "" else ": " ++ r.text
  mark ++ d.text names ++ ending

/-- Report a decision. -/
def report (names : SymbolTable) (d : Decision) (r : Reason) (reporter : Reporter) : Reporter :=
  if reporter.enabled then
    { reporter with log := reporter.log ++ [⟨d.isFailure, line names d r⟩] }
  else reporter

def messages (reporter : Reporter) : List String := reporter.log.map (·.message)

/-- The decisions against an optimization. -/
def failures (reporter : Reporter) : List Diagnostic := reporter.log.filter (·.failure)

end Reporter
end IrAnalysis
