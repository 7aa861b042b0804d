import Typeahead.Parser
import Typeahead.Text.Words

namespace Typeahead

/-! Free text up to the end of a word, shortest first.

Each captured word lowers the score, so that a short capture wins over a long one
when a following parser reads the rest. -/

structure Freetext (H : Host) where
  filter : Option (Text → Action H Bool) := none
  maxLength : Option Nat := none
  delimiters : List Text := [[' '], [',']]

namespace Freetext

variable {H : Host}

def accepts (freetext : Freetext H) (capture : Text) : Action H Bool :=
  if freetext.maxLength.any (· < capture.length) then return false
  else match freetext.filter with
    | some filter => filter capture
    | none => return true

/-- The exponent of a capture's penalty: one more than the pieces that its spaces
cut it into. -/
def penalised (capture : Text) : Nat := Text.spacedPieces capture + 1

/-- A copy of the branch with the first `length` characters of its input. -/
def capture (freetext : Freetext H) (settings : Settings H) (branch : Branch H)
    (length : Nat) : Action H (Run H (Item H)) := do
  let capture := branch.input.take length
  if ← freetext.accepts capture then
    let next ← branch.fork
    let extended := do
      let added ← next.add { content := capture, kind := .input, marker := settings.marker }
      added.addScore (Score.penalty Score.wordRate (penalised capture))
    match extended with
    | .ok extended => return .one (.ok (← settings.emit extended (.text capture)))
    | .error cause => return .one (.error cause)
  else return .empty

def step (freetext : Freetext H) (settings : Settings H) : Step H := fun branch =>
  return .concatMap (freetext.capture settings branch)
    (Text.wordEnds freetext.delimiters branch.input)

def matcher (freetext : Freetext H) : Matcher H where
  name := "freetext"
  step := freetext.step

end Freetext

end Typeahead
