import Typeahead.Matcher.Extension

namespace Typeahead

/-! Distinct children in any order.

Each child is tried in turn; each branch that it yields is followed by all that
the children not used yet make of it. -/

structure Pick where
  /-- The number of branches yielded at most; 0 is no limit. -/
  limit : Option Nat := none
deriving Repr, DecidableEq

namespace Pick

variable {H : Host}

/-- Each member of a list with the others, in order. -/
def selections {α : Type} : List α → List (α × List α)
  | [] => []
  | member :: others =>
      (member, others) :: (selections others).map fun (chosen, rest) => (chosen, member :: rest)

/-- All chains of at most `depth` distinct members of `unused`. -/
def chains : Nat → List (Parser H) → Branch H → Run H (Item H)
  | 0, _, _ => .empty
  | depth + 1, unused, branch =>
      .concatMap (fun (child, others) => do
          let run ← child.start (← branch.fork)
          return run.thenExtend fun rest => return chains depth others rest)
        (selections unused)

def step (pick : Pick) (settings : Settings H) : Step H := fun branch =>
  let all := chains settings.children.length settings.children branch
  return match pick.limit with
    | none | some 0 => all
    | some limit => all.take limit

def matcher (pick : Pick) : Matcher H where
  name := "pick"
  check settings := settings.requireChildren "pick"
  step := pick.step

end Pick

end Typeahead
