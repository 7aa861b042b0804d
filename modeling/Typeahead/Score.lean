namespace Typeahead

/-! Score factors.

Each irregularity costs a fixed rate: a run of `n` of them has the factor
`rate ^ n`, but never less than the least normal double, so that a factor stays
above zero. -/

namespace Score

/-- The square-and-multiply loop of `power`. -/
def powerLoop (product base : Float) (exponent : Nat) : Float :=
  let product := if exponent % 2 = 1 then product * base else product
  if exponent / 2 = 0 then product else powerLoop product (base * base) (exponent / 2)
termination_by exponent
decreasing_by omega

def power (base : Float) (exponent : Nat) : Float := powerLoop 1.0 base exponent

def leastNormal : Float := Float.ofBits 0x0010000000000000

/-- Exponents stop at the largest 32-bit integer. -/
def exponentCap : Nat := 2147483647

/-- The factor of `count` irregularities at one rate. -/
def penalty (rate : Float) (count : Nat) : Float :=
  let factor := power rate (min count exponentCap)
  if factor < leastNormal then leastNormal else factor

/-- The rate for each character of a pattern that was not typed. -/
def skippedRate : Float := 0.99

/-- The rate for each captured word of free text. -/
def wordRate : Float := 0.975

/-- Factors lie above 0 and are at most 1. -/
def inRange (factor : Float) : Bool := 0.0 < factor && factor ≤ 1.0

/-- The product of factors, from the left. -/
def product (factors : List Float) : Float := factors.foldl (· * ·) 1.0

end Score

end Typeahead
