/-
# Settings

How many workers run the analyses and whether decisions are reported.  Settings
are put together freely and checked before they are used; the first fault in
the order threads, stack, names is the one reported.
-/

namespace IrAnalysis

/-- The settings of a run. -/
structure Settings where
  /-- The number of workers, one for each processor if it is left open. -/
  threads : Option Nat
  /-- The stack of a worker in bytes. -/
  stackSize : Option Nat
  /-- Decisions are reported. -/
  diagnostics : Bool
  /-- What the name of each worker begins with. -/
  threadName : String
deriving DecidableEq

/-- Why settings cannot be used. -/
inductive SettingsError
  | noThreads
  | noStack
  | noName
deriving DecidableEq

def SettingsError.message : SettingsError → String
  | noThreads => "Invalid configuration - thread count must be at least 1"
  | noStack => "Invalid configuration - stack size must be non-zero"
  | noName => "Invalid configuration - thread name prefix must not be empty"

namespace Settings

/-- Everything left open, nothing reported. -/
def standard : Settings := ⟨none, none, false, "irscope-worker"⟩

/-- One worker, and decisions are reported. -/
def singleThreaded : Settings := { standard with threads := some 1, diagnostics := true }

def validate (s : Settings) : Except SettingsError Unit :=
  if s.threads = some 0 then .error .noThreads
  else if s.stackSize = some 0 then .error .noStack
  else if s.threadName.isEmpty then .error .noName
  else .ok ()

end Settings
end IrAnalysis
