import Typeahead.Parser
import Typeahead.Text.Blank

namespace Typeahead

/-! All white space at the start of the input. -/

namespace Whitespace

variable {H : Host}

def step (settings : Settings H) : Step H := fun branch =>
  match branch.input.takeWhile Text.isBlank with
  | [] => return .empty
  | found => settings.yieldExtended
      (branch.add { content := found, kind := .input, marker := settings.marker })
      (some (.text found))

def matcher : Matcher H where
  name := "whitespace"
  step := step

end Whitespace

end Typeahead
