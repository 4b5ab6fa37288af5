import ScriptMachine.Fault
import ScriptMachine.Settings
import ScriptMachine.Toml.Reader

/-!
Settings from TOML documents. A document gives the settings it changes; keys that are no setting
are passed over.
-/

namespace ScriptMachine.Settings

/-- A setting that is a natural number. -/
def natural (entries : Toml.Entries) (key : String) (default : Nat) : Except Fault Nat :=
  match entries.lookup key with
  | none => .ok default
  | some (.integer n) => if 0 ≤ n then .ok n.toNat else .error .settings
  | some _ => .error .settings

/-- A setting that is on or off. -/
def toggle (entries : Toml.Entries) (key : String) (default : Bool) : Except Fault Bool :=
  match entries.lookup key with
  | none => .ok default
  | some (.boolean b) => .ok b
  | some _ => .error .settings

/-- The settings of a document. -/
def ofEntries (entries : Toml.Entries) : Except Fault Settings := do
  let d : Settings := {}
  return {
    maxFrames := ← natural entries "max_frames" d.maxFrames
    maxTryDepth := ← natural entries "max_try_depth" d.maxTryDepth
    initialStack := ← natural entries "initial_stack" d.initialStack
    gcInitialThreshold := ← natural entries "gc_initial_threshold" d.gcInitialThreshold
    gcGrowthFactor := ← natural entries "gc_growth_factor" d.gcGrowthFactor
    stressGc := ← toggle entries "stress_gc" d.stressGc
    strictGlobals := ← toggle entries "strict_globals" d.strictGlobals
    traceExecution := ← toggle entries "trace_execution" d.traceExecution }

/-- Reads settings from the text of a document. -/
def ofText (text : String) : Except Fault Settings :=
  match Toml.parse? text with
  | some entries => ofEntries entries
  | none => .error .settings

/-- Reads settings from a file, given what reading it gave: its text, or nothing if there is no
such file. -/
def ofFile : Option String → Except Fault Settings
  | some text => ofText text
  | none => .error (.inputOutput "No such file or directory (os error 2)")

end ScriptMachine.Settings
