namespace Typeahead.Decimal

/-! The shortest decimal text that reads back as a given double.

A positive finite double stands for every real number that rounds to it.  For
one digit, two digits and so on, the two neighbours of the double on the grid of
decimals with that many digits are tested; the first grid with a hit wins, and
of two hits the nearer, or the larger where both are equally near.  The text is
positional, whatever the magnitude, and an integer has no point. -/

/-- A positive double as `significand · 2 ^ exponent`. -/
structure Binary where
  significand : Nat
  exponent : Int
deriving Repr, DecidableEq

def Binary.ofBits (bits : Nat) : Binary :=
  let field : Nat := bits / Nat.pow 2 52
  let tail : Nat := bits % Nat.pow 2 52
  if field = 0 then ⟨tail, -1074⟩ else ⟨tail + Nat.pow 2 52, (field : Int) - 1075⟩

/-- Four times the double and the ends of its interval, over one denominator. -/
structure Interval where
  low : Nat
  value : Nat
  high : Nat
  denominator : Nat
  /-- The ends themselves round to the double. -/
  closed : Bool

def Binary.interval (binary : Binary) : Interval :=
  let scale := Nat.pow 2 (binary.exponent - 2).toNat
  let below := if binary.significand = Nat.pow 2 52 && -1074 < binary.exponent then 1 else 2
  { low := (4 * binary.significand - below) * scale
    value := 4 * binary.significand * scale
    high := (4 * binary.significand + 2) * scale
    denominator := Nat.pow 2 (2 - binary.exponent).toNat
    closed := binary.significand % 2 == 0 }

/-- A decimal number as `digits · 10 ^ exponent`. -/
structure Digits where
  digits : Nat
  exponent : Int
deriving Repr, DecidableEq

namespace Interval

/-- The interval with all numbers multiplied by `10 ^ (-exponent)`. -/
def rescale (interval : Interval) (exponent : Int) : Interval :=
  let up := Nat.pow 10 (-exponent).toNat
  { interval with
    low := interval.low * up
    value := interval.value * up
    high := interval.high * up
    denominator := interval.denominator * Nat.pow 10 exponent.toNat }

def holds (interval : Interval) (candidate : Nat) : Bool :=
  let scaled := candidate * interval.denominator
  if interval.closed then interval.low ≤ scaled && scaled ≤ interval.high
  else interval.low < scaled && scaled < interval.high

/-- The better of the value's two integer neighbours, if one is in the interval. -/
def neighbour? (interval : Interval) : Option Nat :=
  let floor := interval.value / interval.denominator
  let past := interval.value - floor * interval.denominator
  match interval.holds floor, interval.holds (floor + 1) with
  | true, true => some (if 2 * past < interval.denominator then floor else floor + 1)
  | true, false => some floor
  | false, true => some (floor + 1)
  | false, false => none

/-- The least power of ten above the value, searched downward from `start`. -/
def magnitude (interval : Interval) : Nat → Int → Int
  | 0, start => start
  | fuel + 1, start =>
      let scaled := interval.rescale (start - 1)
      if scaled.denominator ≤ scaled.value then start
      else interval.magnitude fuel (start - 1)

/-- Tries grids of `count`, `count + 1`, … digits. -/
def firstHit (interval : Interval) (magnitude : Int) : Nat → Nat → Digits
  | 0, count =>
      let exponent := magnitude - count
      ⟨(interval.rescale exponent).value / (interval.rescale exponent).denominator, exponent⟩
  | fuel + 1, count =>
      let exponent := magnitude - count
      match (interval.rescale exponent).neighbour? with
      | some digits => ⟨digits, exponent⟩
      | none => interval.firstHit magnitude fuel (count + 1)

end Interval

/-- The shortest digits that read back as the double with these bits. -/
def shortestDigits (bits : Nat) : Digits :=
  let interval := (Binary.ofBits bits).interval
  interval.firstHit (interval.magnitude 700 320) 17 1

/-- Positional text without a trailing fraction of zeros. -/
def Digits.positional (number : Digits) : String :=
  let digits := Nat.toDigits 10 number.digits
  if 0 ≤ number.exponent then
    String.ofList (digits ++ List.replicate number.exponent.toNat '0')
  else
    let places := (-number.exponent).toNat
    let padded := List.replicate (places + 1 - digits.length) '0' ++ digits
    let whole := padded.take (padded.length - places)
    let fraction := (padded.drop (padded.length - places)).reverse.dropWhile (· == '0')
    if fraction.isEmpty then String.ofList whole
    else String.ofList (whole ++ '.' :: fraction.reverse)

def shortest (number : Float) : String :=
  let bits := number.toBits.toNat
  let magnitude := bits % Nat.pow 2 63
  let sign := if bits < Nat.pow 2 63 then "" else "-"
  if 0x7FF0000000000000 < magnitude then "NaN"
  else if magnitude = 0x7FF0000000000000 then sign ++ "inf"
  else if magnitude = 0 then sign ++ "0"
  else sign ++ (shortestDigits magnitude).positional

end Typeahead.Decimal
