import Typeahead.Text.Basic

namespace Typeahead.Text

/-! The Unicode property White_Space. -/

/-- Inclusive ranges of the code points that are white space. -/
def blankRanges : List (Nat × Nat) := [
  (0x0009, 0x000D), (0x0020, 0x0020), (0x0085, 0x0085), (0x00A0, 0x00A0),
  (0x1680, 0x1680), (0x2000, 0x200A), (0x2028, 0x2029), (0x202F, 0x202F),
  (0x205F, 0x205F), (0x3000, 0x3000)]

def isBlank (letter : Char) : Bool :=
  blankRanges.any fun range => range.1 ≤ letter.toNat && letter.toNat ≤ range.2

end Typeahead.Text
