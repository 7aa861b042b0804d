import Typeahead.Branch.FixedText
import Typeahead.Parser

namespace Typeahead

/-! Fixed text.

Input that ends inside the text is completed by a suggestion.  A fuzzy literal
takes the input as a subsequence of its text, and each run of characters left out
lowers the score. -/

structure Literal where
  text : Text
  caseSensitive : Bool := false
  fuzzy : Bool := false
deriving Repr, DecidableEq

namespace Literal

variable {H : Host}

/-- Emits the text if it was typed in full. -/
def step (literal : Literal) (settings : Settings H) : Step H := fun branch =>
  match Text.overlap? literal.caseSensitive branch.input literal.text with
  | none => return .empty
  | some overlap =>
      settings.yieldExtended (branch.addOverlap settings.marker overlap)
        (if overlap.isFull then some (.text literal.text) else none)

/-- Emits the text however much of it was typed. -/
def fuzzyStep (literal : Literal) (settings : Settings H) : Step H := fun branch =>
  match Text.segments? { caseSensitive := literal.caseSensitive } branch.input literal.text with
  | none => return .empty
  | some segments =>
      settings.yieldExtended (segments.foldlM (Branch.addSegment settings.marker) branch)
        (some (.text (segments.flatMap (·.content))))

def matcher (literal : Literal) : Matcher H where
  name := "literal"
  check _ :=
    if literal.text.isEmpty then .error (.invalidOptions "literal" "text cannot be empty")
    else .ok ()
  step settings :=
    if literal.fuzzy then literal.fuzzyStep settings else literal.step settings

end Literal

end Typeahead
