/-
# The state of a program between phases

The hierarchy, the current lens and the assumptions in its names.  A phase ends
by publishing its lens, which must rest on the current one; the assumptions
move along.  Removed items are forgotten by `prune`.
-/

import IrAnalysis.Assumption.Collection
import IrAnalysis.Report.Reporter
import IrAnalysis.Workers

namespace IrAnalysis

/-- What all analyses of a program share. -/
structure Program where
  hierarchy : Hierarchy
  settings : Settings
  lens : Lens
  assumptions : Assumptions
  reporter : Reporter

namespace Program

/-- The state before the first phase. -/
def start (hierarchy : Hierarchy) (settings : Settings) : Except SettingsError Program := do
  settings.validate
  return ⟨hierarchy, settings, .identity, .empty, .start settings.diagnostics⟩

/-- Why a lens was not published. -/
inductive PublishError
  /-- The lens does not rest on the current one. -/
  | notExtending (newDepth currentDepth : Nat)
  | violated (v : Violation)

/-- What is said of a lens that does not rest on the current one. -/
def notExtendingMessage (newDepth currentDepth : Nat) : String :=
  s!"Lens of depth {newDepth} does not extend the current lens of depth {currentDepth}"

/-- A step that may be refused, with the state that it leaves in either case. -/
abbrev Step (α : Type) := ExceptT PublishError (StateM Program) α

/-- Do the step in a state. -/
def Step.on {α : Type} (step : Step α) (p : Program) : Except PublishError α × Program := step p

/-- Make a lens the current one and move the assumptions to its names. -/
def publish (lens : Lens) : Step Unit := do
  let p ← get
  if p.lens.isSame lens then return
  if !lens.restsOn p.lens then throw (.notExtending lens.depth p.lens.depth)
  if !p.assumptions.isEmpty then
    match p.assumptions.rewrite lens p.lens with
    | .ok assumptions => set { p with assumptions }
    | .error v => throw (.violated v)
  modify fun p => { p with lens }

/-- Replace the assumptions by others in the names of the current lens. -/
def assume (p : Program) (assumptions : Assumptions) : Program := { p with assumptions }

/-- Forget what is assumed about removed items. -/
def prune (p : Program) (removed : Pruned) : Program :=
  if removed.isEmpty then p else { p with assumptions := p.assumptions.prune removed }

/-- Report a decision. -/
def report (names : SymbolTable) (d : Decision) (r : Reason) (p : Program) : Program :=
  { p with reporter := p.reporter.report names d r }

/-- The workers that the settings ask for. -/
def workers (p : Program) : Except SettingsError Workers := Workers.start p.settings

end Program
end IrAnalysis
