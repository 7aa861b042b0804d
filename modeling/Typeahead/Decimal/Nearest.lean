namespace Typeahead.Decimal

/-! The double nearest to a decimal number, a tie going to the even neighbour.

The quotient is rounded in exact arithmetic to a significand of 53 bits, or
fewer where the exponent has reached its least value. -/

/-- The quotient rounded to the nearest integer, ties to even. -/
def roundedQuotient (numerator denominator : Nat) : Nat :=
  let quotient := numerator / denominator
  let twice := 2 * (numerator % denominator)
  if denominator < twice || (twice == denominator && quotient % 2 == 1) then quotient + 1
  else quotient

/-- The least exponent of a unit in the last place. -/
def leastExponent : Int := -1074

/-- The exponent of the last place that a double keeps of a positive quotient. -/
def lastPlace (numerator denominator : Nat) : Int :=
  let guess : Int := (numerator.log2 : Int) - denominator.log2 - 53
  let scaledNumerator := numerator <<< (-guess).toNat
  let scaledDenominator := denominator <<< guess.toNat
  let exponent := if scaledNumerator < scaledDenominator <<< 53 then guess else guess + 1
  max leastExponent exponent

/-- The bits of the double nearest to a positive quotient. -/
def quotientBits (numerator denominator : Nat) : Nat :=
  let exponent := lastPlace numerator denominator
  let significand :=
    roundedQuotient (numerator <<< (-exponent).toNat) (denominator <<< exponent.toNat)
  let bits :=
    if significand < Nat.pow 2 52 then significand
    else (exponent - leastExponent).toNat * Nat.pow 2 52 + significand
  min bits 0x7FF0000000000000

/-- The double nearest to `significand · 10 ^ exponent`, with the given sign. -/
def nearest (negative : Bool) (significand : Nat) (exponent : Int) : Float :=
  let magnitude :=
    if significand = 0 then 0
    else if 400 < exponent then 0x7FF0000000000000
    else if exponent + (significand.log2 + 1 : Nat) < -400 then 0
    else if 0 ≤ exponent then quotientBits (significand * Nat.pow 10 exponent.toNat) 1
    else quotientBits significand (Nat.pow 10 (-exponent).toNat)
  Float.ofBits (UInt64.ofNat (magnitude + if negative then Nat.pow 2 63 else 0))

end Typeahead.Decimal
