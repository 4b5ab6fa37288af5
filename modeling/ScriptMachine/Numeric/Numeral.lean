import ScriptMachine.Numeric.Binary64
import ScriptMachine.Numeric.Shortest

/-!
The text of a number. Integers below 10 ^ 16 are written as integers, and negative zero among
them without its sign. Every other finite number is written with the fewest digits that read
back, always positionally.
-/

namespace ScriptMachine.Numeral

/-- A decimal without an exponent. -/
def positional (d : Shortest.Decimal) : String :=
  let digits := Nat.toDigits 10 d.digits
  if 0 ≤ d.exponent then String.ofList (digits ++ List.replicate d.exponent.toNat '0')
  else
    let places := (-d.exponent).toNat
    if places < digits.length then
      let whole := digits.take (digits.length - places)
      let rest := digits.drop (digits.length - places)
      String.ofList (whole ++ '.' :: rest)
    else String.ofList ('0' :: '.' :: List.replicate (places - digits.length) '0' ++ digits)

def signed (negative : Bool) (text : String) : String :=
  if negative then "-" ++ text else text

/-- The text of a number as scripts see it. -/
def render (x : Float) : String :=
  match Binary64.read x with
  | .nan => "nan"
  | .infinite negative => signed negative "inf"
  | .finite negative m q =>
    if Binary64.isWholeProduct m q && decide (Binary64.wholePart m q < Nat.pow 10 16) then
      signed (negative && m != 0) (toString (Binary64.wholePart m q))
    else signed negative (positional (Shortest.ofProduct m q))

end ScriptMachine.Numeral
