/-
# Workers: analyses over many methods

The bodies of methods do not depend on each other, so what is done to all of
them is done to each, in order; the number of workers changes no result.
-/

import IrAnalysis.PhiTypes.Recompute
import IrAnalysis.Settings

namespace IrAnalysis

/-- The workers of a run. -/
structure Workers where
  /-- Their number, if the settings give it. -/
  threads : Option Nat
deriving DecidableEq

namespace Workers

/-- Start the workers that the settings ask for. -/
def start (s : Settings) : Except SettingsError Workers := do
  s.validate
  return ⟨s.threads⟩

/-- Move the types of all graphs from the names of `since` to those of `lens`. -/
def rewriteTypes (_ : Workers) (h : Hierarchy) (lens since : Lens) (gs : List Graph) :
    Checked (List (Graph × PhiTypes.Affected)) :=
  gs.mapM (PhiTypes.rewrite h lens since)

/-- Check all graphs, up to the first that is faulty. -/
def verify (_ : Workers) (gs : List Graph) : Except GraphError Unit := gs.forM (·.verify)

/-- Check each graph by itself. -/
def verifyEach (_ : Workers) (gs : List Graph) : List (Except GraphError Unit) :=
  gs.map (·.verify)

def blockCounts (_ : Workers) (gs : List Graph) : List Nat := gs.map (·.blockCount)

/-- Remove the unreachable blocks of all graphs. -/
def clean (_ : Workers) (gs : List Graph) : List Graph := gs.map (·.removeUnreachable.1)

end Workers
end IrAnalysis
