import Typeahead.Branch.Basic

namespace Typeahead

/-! What the owner sees of a branch. -/

structure ParseResult (H : Host) where
  /-- The input that was left uncovered. -/
  input : Text
  parts : List Part
  score : Float
  data : H.Data

def Branch.toResult {H : Host} (branch : Branch H) : ParseResult H where
  input := branch.input
  parts := branch.parts
  score := branch.score
  data := branch.data

namespace ParseResult

variable {H : Host}

def text (result : ParseResult H) : Text := Part.contents result.parts

def spelled (result : ParseResult H) : Text := Part.spelled result.parts

/-- The line that accepting the result gives: all text before the first
placeholder. -/
def line (result : ParseResult H) : Text :=
  Part.contents (result.parts.takeWhile (·.isLine))

/-- The parts, with no markers but the given ones. -/
def partsWith (result : ParseResult H) (visible : List Marker) : List Part :=
  result.parts.map (·.redact visible)

end ParseResult

end Typeahead
