/-!
The fewest decimal digits that read back as a given double. The reals that round to
m * 2 ^ q form an interval, closed exactly when m is even. On each decimal grid, from the
coarsest down, the two grid points around the value are tried; the first grid with a point in
the interval gives the shortest decimal, of two such points the closer one is taken, and on an
exact tie the upper one.
-/

namespace ScriptMachine.Shortest

/-- The decimal digits * 10 ^ exponent. -/
structure Decimal where
  digits : Nat
  exponent : Int
deriving DecidableEq, Repr

/-- The interval of a double in quarters of its last place: the value and its two ends. -/
structure Span where
  low : Nat
  mid : Nat
  high : Nat
  /-- One quarter of the last place is 2 ^ scale. -/
  scale : Int
  closed : Bool
deriving DecidableEq, Repr

/-- The interval of m * 2 ^ q. Below a power of two the doubles lie twice as dense. -/
def span (mantissa : Nat) (exponent : Int) : Span :=
  let dense := mantissa == Nat.pow 2 52 && decide (-1074 < exponent)
  { low := 4 * mantissa - (if dense then 1 else 2)
    mid := 4 * mantissa
    high := 4 * mantissa + 2
    scale := exponent - 2
    closed := mantissa % 2 == 0 }

/-- The integer factors that carry a span and the grid 10 ^ g to one unit. -/
def factors (s : Span) (g : Int) : Nat × Nat :=
  (Nat.pow 2 s.scale.toNat * Nat.pow 10 (-g).toNat, Nat.pow 10 g.toNat * Nat.pow 2 (-s.scale).toNat)

/-- Whether c * 10 ^ g reads back as the double of the span. -/
def Span.accepts (s : Span) (g : Int) (c : Nat) : Bool :=
  let (up, grid) := factors s g
  if s.closed then decide (s.low * up ≤ c * grid) && decide (c * grid ≤ s.high * up)
  else decide (s.low * up < c * grid) && decide (c * grid < s.high * up)

/-- The accepted grid point next to the value, if one of its two neighbours is accepted. -/
def Span.pick? (s : Span) (g : Int) : Option Nat :=
  let (up, grid) := factors s g
  let below := s.mid * up / grid
  match s.accepts g below, s.accepts g (below + 1) with
  | true, true => if 2 * (s.mid * up) < (2 * below + 1) * grid then some below else some (below + 1)
  | true, false => some below
  | false, true => some (below + 1)
  | false, false => none

/-- Tries the grids 10 ^ g, 10 ^ (g - 1), … in turn. -/
def search (s : Span) : Nat → Int → Decimal
  | 0, g => ⟨s.mid * (factors s g).1 / (factors s g).2, g⟩
  | fuel + 1, g =>
    match s.pick? g with
    | some c => ⟨c, g⟩
    | none => search s fuel (g - 1)

/-- A grid above the leading digit of m * 2 ^ q. -/
def topGrid (mantissa : Nat) (exponent : Int) : Int :=
  (Int.ofNat mantissa.log2 + exponent + 1) * 30103 / 100000 + 1

/-- The shortest decimal of a positive m * 2 ^ q. Seventeen digits always suffice, so the
search stops before its bound. -/
def ofProduct (mantissa : Nat) (exponent : Int) : Decimal :=
  search (span mantissa exponent) 24 (topGrid mantissa exponent)

end ScriptMachine.Shortest
