import PlaceRoute.Decimal.Binary64
import PlaceRoute.Text

/-!
# Reading decimals

`ofDecimal` is the double nearest to a decimal, and of two that are equally near the even one; `stepwise` is the one that
simple readers arrive at. `ofText?` reads a number with an optional point and exponent, or a word for one that is not
finite.
-/

namespace PlaceRoute
namespace Decimal

open Text (numberOf splitSign signed)

/-- The exponent of the largest power of two that is not above a positive fraction. -/
def binaryMagnitude (num den : Nat) : Int :=
  let guess : Int := (Nat.log2 num : Int) - Nat.log2 den
  let (p, q) := power 2 guess
  if den * p ≤ num * q then guess else guess - 1

/-- The bits of the positive infinity. -/
def infinityBits : Nat := 2047 * Binary64.leadingBit

/-- The bits of the double nearest to a positive fraction. A mantissa that rounds up to the next power of two carries
into the exponent, and the largest ones into infinity. -/
def nearestBits (num den : Nat) : Nat :=
  let exponent := max (binaryMagnitude num den - 52) (-1074)
  let (p, q) := power 2 exponent
  let mantissa := roundDiv (num * q) (den * p)
  min ((exponent + 1074).toNat * Binary64.leadingBit + mantissa) infinityBits

/-- The double nearest to `mantissa * 10 ^ exponent`. Magnitudes beyond those of doubles are not worked out. -/
def ofDecimal (negative : Bool) (mantissa : Nat) (exponent : Int) : Float :=
  let top : Int := (toString mantissa).length + exponent
  let bits :=
    if mantissa = 0 ∨ top < -330 then 0
    else if 310 < top then infinityBits
    else nearestBits (mantissa * (power 10 exponent).1) (power 10 exponent).2
  Float.ofBits (UInt64.ofNat ((if negative then 1 <<< 63 else 0) + bits))

/-- A number of at most 64 bits in place of the mantissa: its last digits are dropped until it fits. -/
def fitWord (mantissa : Nat) (exponent : Int) : Nat × Int :=
  if mantissa < UInt64.size then (mantissa, exponent) else fitWord (mantissa / 10) (exponent + 1)
  termination_by mantissa
  decreasing_by simp only [UInt64.size] at *; omega

/-- The double that comes of `mantissa * 10 ^ exponent` in single steps, each of them rounded: the digits that fit 64
bits, the power of ten, and their product or quotient. It is the nearest one where the first two steps are exact. -/
def stepwise (negative : Bool) (mantissa : Nat) (exponent : Int) : Float :=
  let (mantissa, exponent) := fitWord mantissa exponent
  let x := (UInt64.ofNat mantissa).toFloat
  let x :=
    if 0 ≤ exponent then x * ofDecimal false 1 exponent
    else if -308 ≤ exponent then x / ofDecimal false 1 (-exponent)
    else x / ofDecimal false 1 308 / ofDecimal false 1 (-exponent - 308)
  if negative then -x else x

/-- The exponent at the end of a number, which is zero where none is written. -/
def exponentOf? : List Char → Option Int
  | [] => some 0
  | e :: rest =>
    let (negative, digits) := splitSign rest
    if (e = 'e' ∨ e = 'E') ∧ !digits.isEmpty ∧ digits.all Char.isDigit then
      some (signed negative (numberOf 10 digits))
    else none

/-- The number that a text writes; digits may be missing on one side of the point. -/
def ofText? (text : String) : Option Float :=
  let (negative, rest) := splitSign text.toList
  let word := String.ofList (rest.map Char.toLower)
  if word = "nan" then some (0 / 0)
  else if word = "inf" ∨ word = "infinity" then some (if negative then -(1 / 0) else 1 / 0)
  else
    let whole := rest.takeWhile Char.isDigit
    let rest := rest.dropWhile Char.isDigit
    let (places, rest) := match rest with
      | '.' :: rest => (rest.takeWhile Char.isDigit, rest.dropWhile Char.isDigit)
      | rest => ([], rest)
    if whole.isEmpty ∧ places.isEmpty then none
    else (exponentOf? rest).map fun e => ofDecimal negative (numberOf 10 (whole ++ places)) (e - places.length)

end Decimal
end PlaceRoute
