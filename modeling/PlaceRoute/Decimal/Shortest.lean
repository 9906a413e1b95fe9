import PlaceRoute.Decimal.Binary64

/-!
# Shortest decimal text

`shortestText` writes a double with the fewest digits that read back as the same double, and of those the digits
nearest to it, in a tie those of the larger magnitude; always in positional notation. With `n` digits the candidates
are the two neighbours of the number on the grid of `n`-digit decimals, and the first grid with a candidate in the
interval of reals that round to the number wins.
-/

namespace PlaceRoute
namespace Decimal

/-- A positive fraction. -/
structure Fraction where
  num : Nat
  den : Nat
  deriving DecidableEq, Repr

namespace Fraction

/-- Whether a fraction is smaller than another. -/
def lt (a b : Fraction) : Bool := decide (a.num * b.den < b.num * a.den)

/-- A mantissa times a power of a base. -/
def scaled (mantissa base : Nat) (exponent : Int) : Fraction :=
  let (num, den) := power base exponent
  ⟨mantissa * num, den⟩

end Fraction

/-- The least `k` up to `limit` for which `num * 10 ^ k` reaches `den`, counted from `start`. -/
def leastShift (num den : Nat) : Nat → Nat → Nat
  | 0, k => k
  | limit + 1, k => if den ≤ num * Nat.pow 10 k then k else leastShift num den limit (k + 1)

/-- The exponent of the largest power of ten that is not above a positive fraction. -/
def magnitude (x : Fraction) : Int :=
  if x.den ≤ x.num then ((toString (x.num / x.den)).length : Int) - 1
  else -(leastShift x.num x.den 400 1 : Int)

/-- The reals that round to a double: those between two fractions, which count themselves if `closed`. -/
structure Interval where
  low : Fraction
  high : Fraction
  closed : Bool

/-- Whether a fraction lies in the interval. -/
def Interval.contains (i : Interval) (x : Fraction) : Bool :=
  if i.closed then !x.lt i.low && !i.high.lt x else i.low.lt x && x.lt i.high

/-- The interval of `mantissa * 2 ^ exponent`: halfway to both neighbours, of which the lower is nearer below a power
of two. -/
def interval (mantissa : Nat) (exponent : Int) : Interval where
  low :=
    if mantissa = Binary64.leadingBit ∧ -1074 < exponent then .scaled (4 * mantissa - 1) 2 (exponent - 2)
    else .scaled (2 * mantissa - 1) 2 (exponent - 1)
  high := .scaled (2 * mantissa + 1) 2 (exponent - 1)
  closed := mantissa % 2 == 0

/-- The candidates with some digits: digits and exponent of the neighbours of `x`, the nearer first and of two that are
equally near the larger. -/
def candidates (x : Fraction) (digits : Nat) : List (Nat × Int) :=
  let exponent := magnitude x - digits + 1
  let (num, den) := power 10 exponent
  let below := x.num * den / (x.den * num)
  let rest := x.num * den % (x.den * num)
  let above := if below + 1 = Nat.pow 10 digits then (Nat.pow 10 (digits - 1), exponent + 1) else (below + 1, exponent)
  if 2 * rest < x.den * num then [(below, exponent), above] else [above, (below, exponent)]

/-- The first candidate in the interval, with at least `17 - fuel` digits; seventeen always suffice. -/
def shortestFrom (x : Fraction) (i : Interval) : Nat → Nat × Int
  | 0 => (candidates x 17).headD (0, 0)
  | fuel + 1 =>
    match (candidates x (17 - fuel)).find? fun (d, e) => i.contains (.scaled d 10 e) with
    | some found => found
    | none => shortestFrom x i fuel

/-- The shortest digits and exponent of a positive double. -/
def shortest (mantissa : Nat) (exponent : Int) : Nat × Int :=
  shortestFrom (.scaled mantissa 2 exponent) (interval mantissa exponent) 17

/-- Digits times a power of ten, in positional notation and without needless zeros. -/
def positional (digits : Nat) (exponent : Int) : String :=
  if 0 ≤ exponent then toString (digits * Nat.pow 10 exponent.toNat) else withPoint (-exponent).toNat digits

/-- A double with the fewest digits. -/
def shortestText (x : Float) : String :=
  match Binary64.decode x with
  | .nan => "NaN"
  | .infinite negative => if negative then "-inf" else "inf"
  | .finite negative 0 _ => if negative then "-0" else "0"
  | .finite negative mantissa exponent =>
    let (digits, e) := shortest mantissa exponent
    (if negative then "-" else "") ++ positional digits e

end Decimal
end PlaceRoute
