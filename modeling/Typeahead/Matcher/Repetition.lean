import Typeahead.Branch.FixedText
import Typeahead.Matcher.Extension

namespace Typeahead

/-! One or more occurrences of a child, joined by glue.

Behind an occurrence the glue is read, or suggested where the input ends.  A
branch that used up its input without having been typed in full shows a
placeholder for a further occurrence instead. -/

def Repetition.maxLimit : Nat := 6

structure Repetition where
  glue : List Text := []
  limit : Nat := Repetition.maxLimit
  /-- Set in place of the first glue. -/
  ownPlaceholder : Option Text := none
deriving Repr, DecidableEq

namespace Repetition

variable {H : Host}

def placeholder? (repetition : Repetition) : Option Text :=
  repetition.ownPlaceholder.or repetition.glue.head?

/-- The placeholder to show on a branch instead of the glue. -/
def shownPlaceholder? (repetition : Repetition) (branch : Branch H) : Option Text :=
  repetition.placeholder?.filter fun _ => branch.wantsPlaceholder

/-- Reads one glue and then the child, each of whose branches `extend` continues. -/
def glued (child : Parser H) (extend : Branch H → Action H (Run H (Item H)))
    (branch : Branch H) (glue : Text) : Action H (Run H (Item H)) :=
  match Text.overlap? false branch.input glue with
  | none => return .empty
  | some overlap => do
      match (← branch.fork).addOverlap none overlap with
      | .error cause => return .one (.error cause)
      | .ok joined =>
          if joined.hasKind .suggestion then return .one (.ok joined)
          else return (← child.start joined).thenExtend extend

/-- What follows the last of some occurrences, `remaining` counting that one and
those still allowed. -/
def extensions (repetition : Repetition) (child : Parser H) : Nat → Step H
  | 0, _ | 1, _ => return .empty
  | remaining + 2, branch =>
      if branch.isFinished || branch.hasKind .suggestion then return .empty
      else match repetition.shownPlaceholder? branch with
        | some text =>
            return .one do
              return (← branch.add { content := text, kind := .placeholder }).finish
        | none =>
            return .concatMap
              (glued child (extensions repetition child (remaining + 1)) branch)
              repetition.glue

def step (repetition : Repetition) (settings : Settings H) : Step H := fun branch =>
  match settings.children with
  | [] => return .empty
  | child :: _ => do
      return (← child.start branch).thenExtend
        (repetition.extensions child repetition.limit)

def matcher (repetition : Repetition) : Matcher H where
  name := "repeat"
  check settings := do
    settings.expectChildren "repeat" 1
    if repetition.glue.isEmpty || repetition.glue.any (·.isEmpty) then throw .emptyGlue
    if maxLimit < repetition.limit then
      throw (.repeatLimitTooLarge repetition.limit maxLimit)
  step := repetition.step

end Repetition

end Typeahead
