/-!
Limits and switches of a machine.
-/

namespace ScriptMachine

/-- What can be set for one machine. -/
structure Settings where
  /-- The depth of calls allowed. -/
  maxFrames : Nat := 1024
  /-- The try regions allowed inside one another in one function. -/
  maxTryDepth : Nat := 16
  /-- Stack slots reserved at the start. -/
  initialStack : Nat := 256
  /-- What may be allocated before the first collection. -/
  gcInitialThreshold : Nat := 1048576
  /-- By how much the threshold grows after a collection. -/
  gcGrowthFactor : Nat := 2
  /-- Collect before every instruction. -/
  stressGc : Bool := false
  /-- Assigning an unknown global is an error instead of a definition. -/
  strictGlobals : Bool := true
  /-- Report every instruction. -/
  traceExecution : Bool := false
deriving DecidableEq, Repr, Inhabited

end ScriptMachine
