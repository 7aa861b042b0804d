import Typeahead.Parser

namespace Typeahead

/-! Choices: one child of several, or a child or nothing. -/

variable {H : Host}

namespace Fork

/-- Every child on a copy of the branch of its own, in order. -/
def step (settings : Settings H) : Step H := fun branch =>
  return .concatMap (fun child => do child.start (← branch.fork)) settings.children

def matcher : Matcher H where
  name := "fork"
  check settings := settings.requireChildren "fork"
  step := step

end Fork

namespace Optional

/-- A copy of the branch as it is, and then what the child makes of it. -/
def step (settings : Settings H) : Step H := fun branch => do
  let skipped ← branch.fork
  return .cons (.ok skipped) (.defer (match settings.children with
    | [] => return .empty
    | child :: _ => child.start branch))

def matcher : Matcher H where
  name := "optional"
  check settings := settings.expectChildren "optional" 1
  step := step

end Optional

end Typeahead
