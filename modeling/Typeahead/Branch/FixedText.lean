import Typeahead.Branch.Basic
import Typeahead.Text.Subsequence

namespace Typeahead

/-! Adding fixed text to a branch as far as it was typed. -/

def Text.SegmentKind.partKind : Text.SegmentKind → PartKind
  | .typed => .input
  | .skipped => .fuzzy
  | .pending => .suggestion

namespace Branch

variable {H : Host}

/-- Adds a text as far as it was typed, and the rest as a suggestion. -/
def addOverlap (branch : Branch H) (marker : Option Marker) :
    Text.Overlap → Except Error (Branch H)
  | .full matched _ => branch.add { content := matched, kind := .input, marker }
  | .begun typed suggestion => do
      let begun ← if typed.isEmpty then .ok branch
        else branch.add { content := typed, kind := .input, marker }
      begun.add { content := suggestion, kind := .suggestion, marker }

/-- Adds one segment of a pattern; characters that were left out also cost score. -/
def addSegment (marker : Option Marker) (branch : Branch H) (segment : Text.Segment) :
    Except Error (Branch H) := do
  let scored ← if segment.kind = .skipped then
      branch.addScore (Score.penalty Score.skippedRate segment.content.length)
    else .ok branch
  scored.add { content := segment.content, kind := segment.kind.partKind, marker }

end Branch

end Typeahead
