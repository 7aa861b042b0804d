import Typeahead.Parser

namespace Typeahead

/-! Children one after the other.

Each child continues every branch that the children before it left, all of them
before the next child begins.  Errors are put in front of the branches that
survive the last child. -/

namespace Sequence

variable {H : Host}

/-- All items of one child on every branch, in order. -/
def level (child : Parser H) : List (Branch H) → Action H (List (Item H))
  | [] => return []
  | branch :: others => do
      let items ← (← child.start branch).toList
      return items ++ (← level child others)

def errorsOf (items : List (Item H)) : List Error :=
  items.filterMap fun
    | .ok _ => none
    | .error cause => some cause

def branchesOf (items : List (Item H)) : List (Branch H) :=
  items.filterMap fun
    | .ok branch => some branch
    | .error _ => none

/-- The errors of all children and the branches that the last one left. -/
def levels : List (Parser H) → List (Branch H) → Action H (List Error × List (Branch H))
  | [], live => return ([], live)
  | child :: others, live => do
      let items ← level child live
      let (errors, survivors) ← levels others (branchesOf items)
      return (errorsOf items ++ errors, survivors)

def step (settings : Settings H) : Step H := fun branch =>
  return .defer do
    let (errors, survivors) ← levels settings.children [branch]
    return .ofList (errors.map .error ++ survivors.map .ok)

def matcher : Matcher H where
  name := "sequence"
  check settings := settings.requireChildren "sequence"
  step := step

end Sequence

end Typeahead
