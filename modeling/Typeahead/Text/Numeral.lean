import Typeahead.Text.Basic
import Typeahead.Decimal.Nearest

namespace Typeahead.Text

/-! Numerals at the start of typed text: an optional minus sign, digits and,
unless only integers are wanted, a point or comma followed by digits.  Only the
ASCII digits count. -/

structure Numeral where
  negative : Bool
  whole : Text
  /-- The separator as typed, and the digits behind it. -/
  fraction : Option (Char × Text)
deriving Repr, DecidableEq

namespace Numeral

def text (numeral : Numeral) : Text :=
  (if numeral.negative then ['-'] else []) ++ numeral.whole ++
    match numeral.fraction with
    | some (separator, digits) => separator :: digits
    | none => []

def digitsValue (digits : Text) : Nat :=
  digits.foldl (fun value digit => 10 * value + (digit.toNat - '0'.toNat)) 0

/-- The double nearest to the number that the numeral spells. -/
def value (numeral : Numeral) : Float :=
  match numeral.fraction with
  | some (_, digits) =>
      Decimal.nearest numeral.negative (digitsValue (numeral.whole ++ digits))
        (-(digits.length : Int))
  | none => Decimal.nearest numeral.negative (digitsValue numeral.whole) 0

def isSeparator (letter : Char) : Bool := letter == '.' || letter == ','

/-- The fraction that opens the text: a separator and at least one digit. -/
def fraction? : Text → Option (Char × Text)
  | [] => none
  | separator :: rest =>
      let digits := rest.takeWhile Char.isDigit
      if isSeparator separator && !digits.isEmpty then some (separator, digits) else none

def leading? (integersOnly : Bool) (text : Text) : Option Numeral :=
  let negative := text.head? == some '-'
  let unsigned := if negative then text.tail else text
  let whole := unsigned.takeWhile Char.isDigit
  if whole.isEmpty then none
  else some {
    negative, whole
    fraction := if integersOnly then none else fraction? (unsigned.dropWhile Char.isDigit) }

end Numeral

def ofInt : Int → Text
  | .ofNat magnitude => Nat.toDigits 10 magnitude
  | .negSucc below => '-' :: Nat.toDigits 10 (below + 1)

end Typeahead.Text
