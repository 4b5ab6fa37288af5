/-!
Doubles as exact numbers. A finite double is a sign and a product m * 2 ^ q of a natural
number and a power of two. Truncation, floor, ceiling and remainder are computed on that
product, so none of them rounds.
-/

namespace ScriptMachine.Binary64

/-- What a double stands for. -/
inductive Reading where
  | nan
  | infinite (negative : Bool)
  | finite (negative : Bool) (mantissa : Nat) (exponent : Int)
deriving DecidableEq, Repr

/-- Splits the 64 bits into sign, exponent field and fraction. -/
def read (x : Float) : Reading :=
  let bits := x.toBits.toNat
  let negative := decide (Nat.pow 2 63 ≤ bits)
  let field := bits / Nat.pow 2 52 % Nat.pow 2 11
  let fraction := bits % Nat.pow 2 52
  if field = 2047 then
    if fraction = 0 then .infinite negative else .nan
  else if field = 0 then .finite negative fraction (-1074)
  else .finite negative (fraction + Nat.pow 2 52) (Int.ofNat field - 1075)

/-- The double with value ± m * 2 ^ q, for m below 2 ^ 53 and q at least -1074. -/
def ofParts (negative : Bool) (mantissa : Nat) (exponent : Int) : Float :=
  let sign := if negative then Nat.pow 2 63 else 0
  if mantissa = 0 then Float.ofBits (UInt64.ofNat sign)
  else
    let shift := min (52 - mantissa.log2) (exponent + 1074).toNat
    let scaled := mantissa * Nat.pow 2 shift
    let field := if scaled < Nat.pow 2 52 then 0 else (exponent - shift + 1075).toNat
    Float.ofBits (UInt64.ofNat (sign + field * Nat.pow 2 52 + scaled % Nat.pow 2 52))

def notANumber : Float := Float.ofBits 0x7ff8000000000000

/-- The largest natural number not above m * 2 ^ q. -/
def wholePart (mantissa : Nat) (exponent : Int) : Nat :=
  if 0 ≤ exponent then mantissa * Nat.pow 2 exponent.toNat
  else mantissa / Nat.pow 2 (-exponent).toNat

/-- Whether m * 2 ^ q is a natural number. -/
def isWholeProduct (mantissa : Nat) (exponent : Int) : Bool :=
  decide (0 ≤ exponent) || mantissa % Nat.pow 2 (-exponent).toNat == 0

/-- Whether a double is an integer; infinities and NaN are not. -/
def isWhole (x : Float) : Bool :=
  match read x with
  | .finite _ m q => isWholeProduct m q
  | _ => false

def minWord : Int := -Int.pow 2 63

def maxWord : Int := Int.pow 2 63 - 1

/-- Brings an integer into the range of signed 64-bit words. -/
def clampWord (n : Int) : Int := max minWord (min maxWord n)

/-- Truncation toward zero, clamped to signed 64-bit words; NaN gives zero. -/
def toWord (x : Float) : Int :=
  match read x with
  | .nan => 0
  | .infinite true => minWord
  | .infinite false => maxWord
  | .finite true m q => clampWord (-(Int.ofNat (wholePart m q)))
  | .finite false m q => clampWord (Int.ofNat (wholePart m q))

/-- Truncation toward zero, cut at 64 bits; NaN and negative numbers give zero. -/
def toCount (x : Float) : Nat :=
  match read x with
  | .infinite false => Nat.pow 2 64 - 1
  | .finite false m q => min (Nat.pow 2 64 - 1) (wholePart m q)
  | _ => 0

/-- The largest integer not above x, as a double. An integer keeps its sign of zero. -/
def floor (x : Float) : Float :=
  match read x with
  | .finite negative m q =>
    if isWholeProduct m q then x
    else if negative then ofParts true (wholePart m q + 1) 0
    else ofParts false (wholePart m q) 0
  | _ => x

/-- The magnitude of x rounded up to a natural number and cut at `limit`; NaN gives zero. -/
def ceilMagnitude (limit : Nat) (x : Float) : Nat :=
  match read x with
  | .nan => 0
  | .infinite _ => limit
  | .finite _ m q =>
    min limit (if isWholeProduct m q then wholePart m q else wholePart m q + 1)

/-- What is left of a after taking away the multiple of b next to it toward zero. The result
has the sign of a. -/
def remainder (a b : Float) : Float :=
  match read a, read b with
  | .finite negative m q, .finite _ n r =>
    if n = 0 then notANumber
    else
      let unit := min q r
      let left := m * Nat.pow 2 (q - unit).toNat % (n * Nat.pow 2 (r - unit).toNat)
      ofParts negative left unit
  | .finite .., .infinite _ => a
  | _, _ => notANumber

/-- Remainder whose result takes the sign of the divisor. -/
def flooredMod (a b : Float) : Float :=
  let r := remainder a b
  if r != 0 && (r < 0) != (b < 0) then r + b else r

end ScriptMachine.Binary64
