import ScriptMachine.Toml.Document

/-!
TOML values that are one word: truth values, integers, floats, dates and times.
-/

namespace ScriptMachine.Toml

/-- The characters of words. -/
def isWordChar (c : Char) : Bool := c.isAlphanum || "+-_.:".contains c

/-- Digits of some class with single underscores between them. -/
def isGrouped (isDigit : Char → Bool) : List Char → Bool
  | [] => false
  | [c] => isDigit c
  | c :: '_' :: rest => isDigit c && isGrouped isDigit rest
  | c :: rest => isDigit c && isGrouped isDigit rest

/-- Decimal digits without a leading zero. -/
def isPlainDecimal (cs : List Char) : Bool :=
  isGrouped Char.isDigit cs && (cs.length == 1 || cs.head? != some '0')

def digitValue (c : Char) : Nat :=
  if c.isDigit then c.toNat - 48
  else if c.toNat < 97 then c.toNat - 55
  else c.toNat - 87

/-- The number that digits stand for in a base. -/
def numberOf (base : Nat) (cs : List Char) : Nat :=
  (cs.filter (· != '_')).foldl (fun n c => n * base + digitValue c) 0

def isHexDigit (c : Char) : Bool := c.isDigit || ('a' ≤ c && c ≤ 'f') || ('A' ≤ c && c ≤ 'F')

/-- A sign, and what follows it. -/
def splitSign : List Char → Bool × List Char
  | '-' :: rest => (true, rest)
  | '+' :: rest => (false, rest)
  | cs => (false, cs)

/-- An integer before it is known to fit. -/
def unboundedInteger? (cs : List Char) : Option Int :=
  let based (base : Nat) (isDigit : Char → Bool) (rest : List Char) : Option Int :=
    if isGrouped isDigit rest then some (numberOf base rest) else none
  match cs with
  | '0' :: 'x' :: rest => based 16 isHexDigit rest
  | '0' :: 'o' :: rest => based 8 (fun c => '0' ≤ c && c ≤ '7') rest
  | '0' :: 'b' :: rest => based 2 (fun c => c == '0' || c == '1') rest
  | cs =>
    let (negative, digits) := splitSign cs
    if isPlainDecimal digits then
      some (if negative then -(numberOf 10 digits : Int) else numberOf 10 digits)
    else none

/-- An integer of 64 bits. -/
def integer? (cs : List Char) : Option Int :=
  (unboundedInteger? cs).filter fun n => decide (-Int.pow 2 63 ≤ n) && decide (n < Int.pow 2 63)

/-- The exponent of a float, if there is one. -/
def exponent? (cs : List Char) : Option Int :=
  match cs with
  | [] => some 0
  | c :: rest =>
    if c == 'e' || c == 'E' then
      let (negative, digits) := splitSign rest
      if isGrouped Char.isDigit digits then
        some (if negative then -(numberOf 10 digits : Int) else numberOf 10 digits)
      else none
    else none

/-- A float as a digit string and a power of ten. -/
def decimal? (cs : List Char) : Option (Nat × Int) := do
  let whole := cs.takeWhile fun c => c.isDigit || c == '_'
  let rest := cs.drop whole.length
  if !isPlainDecimal whole then none
  else
    match rest with
    | '.' :: rest =>
      let places := rest.takeWhile fun c => c.isDigit || c == '_'
      if !isGrouped Char.isDigit places then none
      else
        let e ← exponent? (rest.drop places.length)
        let digits := (whole ++ places).filter (· != '_')
        return (numberOf 10 digits, e - (places.filter (· != '_')).length)
    | [] => none
    | rest => return (numberOf 10 whole, ← exponent? rest)

/-- Whether a decimal is too large for a double: half a unit above the largest one or more. -/
def overflows (digits : Nat) (e : Int) : Bool :=
  if digits = 0 then false
  else if 400 < e then true
  else
    let tooLarge := (Nat.pow 2 54 - 1) * Nat.pow 2 970
    decide (tooLarge * Nat.pow 10 (-e).toNat ≤ digits * Nat.pow 10 e.toNat)

/-- A float. A positive one must not be too large. -/
def isFloat (cs : List Char) : Bool :=
  let (negative, rest) := splitSign cs
  if rest == "inf".toList || rest == "nan".toList then true
  else
    match decimal? rest with
    | some (digits, e) => negative || !overflows digits e
    | none => false

/-- A number of a fixed count of digits within bounds. -/
def fieldWithin (width low high : Nat) (cs : List Char) : Bool :=
  cs.length == width && cs.all Char.isDigit && decide (low ≤ numberOf 10 cs) &&
    decide (numberOf 10 cs ≤ high)

/-- The days of a month. -/
def daysIn (year month : Nat) : Nat :=
  if month = 2 then
    if year % 4 = 0 ∧ (year % 100 ≠ 0 ∨ year % 400 = 0) then 29 else 28
  else if month = 4 ∨ month = 6 ∨ month = 9 ∨ month = 11 then 30
  else 31

/-- A date such as 1979-05-27. -/
def isDate (cs : List Char) : Bool :=
  let year := cs.take 4
  let month := (cs.drop 5).take 2
  let day := cs.drop 8
  cs[4]? == some '-' && cs[7]? == some '-' && fieldWithin 4 0 9999 year &&
    fieldWithin 2 1 12 month && fieldWithin 2 1 (daysIn (numberOf 10 year) (numberOf 10 month)) day

/-- A time such as 07:32:00 or 07:32:00.999. -/
def isTime (cs : List Char) : Bool :=
  cs[2]? == some ':' && cs[5]? == some ':' && fieldWithin 2 0 23 (cs.take 2) &&
    fieldWithin 2 0 59 ((cs.drop 3).take 2) && fieldWithin 2 0 60 ((cs.drop 6).take 2) &&
    match cs.drop 8 with
    | [] => true
    | '.' :: places => !places.isEmpty && places.all Char.isDigit
    | _ => false

/-- An offset such as +01:00. -/
def isOffset (cs : List Char) : Bool :=
  match cs with
  | sign :: rest =>
    (sign == '+' || sign == '-') && rest[2]? == some ':' && fieldWithin 2 0 23 (rest.take 2) &&
      fieldWithin 2 0 59 (rest.drop 3)
  | [] => false

/-- A time with or without an offset. -/
def isZonedTime (cs : List Char) : Bool :=
  let time := cs.takeWhile fun c => c.isDigit || c == ':' || c == '.'
  let zone := cs.drop time.length
  isTime time && (zone.isEmpty || zone == ['Z'] || zone == ['z'] || isOffset zone)

/-- A date and a time, or one of them. -/
def isDateTime (cs : List Char) : Bool :=
  let separator := cs[10]?
  isDate cs || isTime cs ||
    (isDate (cs.take 10) && (separator == some 'T' || separator == some 't') &&
      isZonedTime (cs.drop 11))

/-- The value of a word. -/
def scalar? (cs : List Char) : Option Item :=
  if cs == "true".toList then some (.boolean true)
  else if cs == "false".toList then some (.boolean false)
  else
    match integer? cs with
    | some n => some (.integer n)
    | none => if isFloat cs || isDateTime cs then some .other else none

end ScriptMachine.Toml
