import Typeahead.Grammar
import Typeahead.Rule

namespace Typeahead

/-! An owner that notes down what parsers find.

It can note each text on the branch where it was found, or have the parsers hand
their texts to an enclosing definition, which notes them. -/

/-- The data are the texts noted so far, and texts are what is handed on. -/
abbrev Host.notes : Host := ⟨Unit, List Text, Text, Unit⟩

def Emission.texts : Emission Host.notes → List Text
  | .text found => [found]
  | .number _ => []
  | .value found => [found]

/-- The handler that notes down every text. -/
def gather (emission : Emission Host.notes) (noted : List Text) :
    Action Host.notes (Option (List Text)) :=
  return some (noted ++ emission.texts)

/-- The handler that hands on every text and notes nothing. -/
def forward (emission : Emission Host.notes) (_ : List Text) :
    Action Host.notes (Option (List Text)) := do
  emission.texts.forM (Action.emit (H := Host.notes))
  return none

/-- The grammar of a parser on whose branches nothing is noted at first. -/
def Grammar.notes (parser : Parser Host.notes) : Grammar Host.notes where
  parser
  holder := .plain []

end Typeahead
