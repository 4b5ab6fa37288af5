import ScriptMachine.Numeric.Binary64

/-!
Numeric ranges. A range starts at its lower bound and goes by ones toward its upper bound, which
it does not contain. It counts down if the upper bound is the smaller one.
-/

namespace ScriptMachine

/-- The numbers from `lower` toward `upper`. -/
structure Range where
  lower : Float
  upper : Float
deriving DecidableEq

namespace Range

/-- Lengths are cut at the largest signed 64-bit number. -/
def lengthLimit : Nat := Nat.pow 2 63 - 1

/-- The number of elements. -/
def length (r : Range) : Nat := Binary64.ceilMagnitude lengthLimit (r.upper - r.lower)

/-- The element at a position. -/
def get? (r : Range) (i : Nat) : Option Float :=
  if i < r.length then
    let step : Float := if r.lower ≤ r.upper then 1 else -1
    some (r.lower + step * Float.ofNat i)
  else none

end Range

end ScriptMachine
