import Typeahead.Decimal.Nearest
import Typeahead.Decimal.Shortest

namespace Typeahead.Decimal

/-! Doubles and integers of 64 bits.

Every finite double is a multiple of the least positive one, and that multiple is
an integer: so doubles are rounded to integers in exact arithmetic. -/

/-- The multiple of the least positive double that the bits of a double stand for;
an infinity counts as the first number that is too large. -/
def multiple (bits : Nat) : Int :=
  let binary := Binary.ofBits (bits % Nat.pow 2 63)
  let magnitude := binary.significand * Nat.pow 2 (binary.exponent - leastExponent).toNat
  if bits < Nat.pow 2 63 then magnitude else -magnitude

/-- How many of the least positive doubles make one. -/
def one : Nat := Nat.pow 2 1074

def isNaN (bits : Nat) : Bool := 0x7FF0000000000000 < bits % Nat.pow 2 63

def leastInteger : Int := -0x8000000000000000

def greatestInteger : Int := 0x7FFFFFFFFFFFFFFF

/-- The nearest integer of 64 bits. -/
def saturate (integer : Int) : Int := max leastInteger (min integer greatestInteger)

/-- The greatest integer up to a double, as far as 64 bits hold it; no number
counts as 0. -/
def integerBelow (value : Float) : Int :=
  let bits := value.toBits.toNat
  if isNaN bits then 0 else saturate (multiple bits / one)

/-- The least integer from a double on, as far as 64 bits hold it. -/
def integerAbove (value : Float) : Int :=
  let bits := value.toBits.toNat
  if isNaN bits then 0 else saturate (-(-multiple bits / one))

/-- The double nearest to an integer. -/
def ofInt (integer : Int) : Float := nearest (integer < 0) integer.natAbs 0

end Typeahead.Decimal
