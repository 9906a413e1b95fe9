/-!
# Floating-point numbers as fractions

A finite floating-point number is a sign and a fraction `mantissa * 2 ^ exponent`; `Binary64.decode` reads it off the
bits. `fixedText` prints a number with a fixed number of places, and `nanoseconds?` reads it as a span of time.
-/

namespace PlaceRoute

/-- What the bits of a double stand for. -/
inductive Binary64 where
  | nan
  | infinite (negative : Bool)
  | finite (negative : Bool) (mantissa : Nat) (exponent : Int)
  deriving DecidableEq, Repr

namespace Binary64

/-- The bit that starts a full mantissa of 53 bits. -/
def leadingBit : Nat := 1 <<< 52

/-- The number that a double's bits stand for. -/
def decode (x : Float) : Binary64 :=
  let bits := x.toBits.toNat
  let negative := bits >>> 63 == 1
  let exponent := (bits >>> 52) % 2048
  let fraction := bits % leadingBit
  if exponent = 2047 then if fraction = 0 then .infinite negative else .nan
  else if exponent = 0 then .finite negative fraction (-1074)
  else .finite negative (leadingBit + fraction) ((exponent : Int) - 1075)

end Binary64

namespace Decimal

/-- A power with an integer exponent, as numerator and denominator. -/
def power (base : Nat) (exponent : Int) : Nat × Nat := (base.pow exponent.toNat, base.pow (-exponent).toNat)

/-- The quotient rounded to the nearest integer, halves to the even one. -/
def roundDiv (num den : Nat) : Nat :=
  let q := num / den
  let r := num % den
  if 2 * r < den then q else if den < 2 * r then q + 1 else if q % 2 = 0 then q else q + 1

/-- A number of units of `10 ^ -places`, with a point. -/
def withPoint (places units : Nat) : String :=
  let digits := toString units
  let digits := "".pushn '0' (places + 1 - digits.length) ++ digits
  if places = 0 then digits
  else
    let chars := digits.toList
    String.ofList (chars.take (chars.length - places)) ++ "." ++ String.ofList (chars.drop (chars.length - places))

/-- A double with a fixed number of places. -/
def fixedText (places : Nat) (x : Float) : String :=
  match Binary64.decode x with
  | .nan => "NaN"
  | .infinite negative => if negative then "-inf" else "inf"
  | .finite negative mantissa exponent =>
    let (num, den) := power 2 exponent
    (if negative then "-" else "") ++ withPoint places (roundDiv (mantissa * num * Nat.pow 10 places) den)

/-- A number of seconds in nanoseconds, if it is not negative and less than `2 ^ 64`. -/
def nanoseconds? (x : Float) : Option Nat :=
  match Binary64.decode x with
  | .finite negative mantissa exponent =>
    let (num, den) := power 2 exponent
    if (negative ∧ mantissa ≠ 0) ∨ UInt64.size * den ≤ mantissa * num then none
    else some (roundDiv (mantissa * num * 1000000000) den)
  | _ => none

end Decimal
end PlaceRoute
