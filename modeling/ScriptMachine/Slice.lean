import ScriptMachine.Numeric.Binary64

/-!
Positions in sequences. A position is a number truncated to a 64-bit word; a negative one counts
from the end. A slice has two such bounds, each cut to the sequence, and without a bound it begins
at the start or ends at the end.
-/

namespace ScriptMachine.Slice

/-- The index of a word position in a sequence of a given length. -/
def resolveWord? (word : Int) (length : Nat) : Option Nat :=
  let index := if word < 0 then length + word else word
  if 0 ≤ index ∧ index < length then some index.toNat else none

/-- The index of a number position. -/
def resolve? (x : Float) (length : Nat) : Option Nat := resolveWord? (Binary64.toWord x) length

/-- Where a write goes: the position one past the end appends. -/
def writeIndex? (x : Float) (length : Nat) : Option Nat :=
  if Binary64.toWord x = length then some length else resolve? x length

/-- A bound cut to a sequence of a given length. -/
def clampBound (word : Int) (length : Nat) : Nat :=
  if word < 0 then (length + word).toNat else min word.toNat length

/-- The first index of a slice and the index after its last one. -/
def bounds (lower upper : Option Int) (length : Nat) : Nat × Nat :=
  let low := clampBound (lower.getD 0) length
  let high := clampBound (upper.getD length) length
  if high ≤ low then (0, 0) else (low, high)

/-- The elements of a list in a slice. -/
def ofList {α : Type} (lower upper : Option Int) (xs : List α) : List α :=
  let (low, high) := bounds lower upper xs.length
  (xs.drop low).take (high - low)

/-- The elements of an array in a slice. -/
def ofArray {α : Type} (lower upper : Option Int) (xs : Array α) : Array α :=
  let (low, high) := bounds lower upper xs.size
  xs.extract low high

/-! The bounds of a slice are positions of the sequence. -/

theorem clampBound_le (word : Int) (length : Nat) : clampBound word length ≤ length := by
  unfold clampBound
  split <;> omega

theorem bounds_snd_le (lower upper : Option Int) (length : Nat) :
    (bounds lower upper length).2 ≤ length := by
  unfold bounds
  dsimp only
  split
  · exact Nat.zero_le _
  · exact clampBound_le _ _

theorem bounds_fst_le_snd (lower upper : Option Int) (length : Nat) :
    (bounds lower upper length).1 ≤ (bounds lower upper length).2 := by
  unfold bounds
  dsimp only
  split
  · exact Nat.le_refl 0
  · simp only
    omega

end ScriptMachine.Slice
