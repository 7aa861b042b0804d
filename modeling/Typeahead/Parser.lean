import Typeahead.Branch.Basic
import Typeahead.Run.Basic

namespace Typeahead

/-! Parsers and what surrounds the matching of each one.

A parser continues a branch in any number of ways.  Before its own matching is
asked, a parser passes on branches that are finished or that it is disabled for,
shows its placeholder where there is nothing to read, and finishes branches that
lack the input it requires.  Around the matching it keeps the stack of active
parsers, tells the owner of each branch that it yields, and falls back to its
placeholder when the matching yields nothing on a branch without input. -/

/-- A continued branch, or why a branch could not be continued. -/
abbrev Item (H : Host) := Except Error (Branch H)

/-- How a branch is continued.  The action is what happens at once, the run what
happens as it is pulled. -/
abbrev Step (H : Host) := Branch H → Action H (Run H (Item H))

structure Parser (H : Host) where
  name : String
  start : Step H

/-- A value that a parser found: its text, its number, or whatever a definition
was handed. -/
inductive Emission (H : Host) where
  | text (found : Text)
  | number (found : Float)
  | value (found : H.Value)

structure Settings (H : Host) where
  children : List (Parser H) := []
  marker : Option Marker := none
  placeholder : Option Text := none
  requiresInput : Bool := false
  /-- Told of every branch that the matching yields. -/
  onYield : Branch H → Action H Unit := fun _ => pure ()
  /-- Given an emission and the data of its branch, answers new data or `none`. -/
  onEmission : Option (Emission H → H.Data → Action H (Option H.Data)) := none

inductive Course where
  | pass
  | showPlaceholder (text : Text)
  | finish
  | proceed
deriving Repr, DecidableEq

namespace Settings

variable {H : Host}

def requireChildren (settings : Settings H) (parser : String) : Except Error Unit :=
  if settings.children.isEmpty then .error (.missingChildren parser) else .ok ()

def expectChildren (settings : Settings H) (parser : String) (expected : Nat) :
    Except Error Unit :=
  if settings.children.length = expected then .ok ()
  else .error (.childCount parser expected settings.children.length)

/-- Hands an emission to the owner, whose answer becomes the data of the branch. -/
def emit (settings : Settings H) (branch : Branch H) (emission : Emission H) :
    Action H (Branch H) :=
  match settings.onEmission with
  | none => pure branch
  | some handler => do
      match ← handler emission branch.data with
      | some data => return { branch with data }
      | none => return branch

/-- Yields an extended branch, with an emission if there is one to make, or why the
branch could not be extended. -/
def yieldExtended (settings : Settings H) (extended : Item H) (emission : Option (Emission H)) :
    Action H (Run H (Item H)) :=
  match extended, emission with
  | .ok branch, some emission => do return .one (.ok (← settings.emit branch emission))
  | .ok branch, none => return .one (.ok branch)
  | .error cause, _ => return .one (.error cause)

def courseOnInput (settings : Settings H) (branch : Branch H) : Course :=
  if settings.requiresInput && !branch.hasInput then .finish else .proceed

def course (settings : Settings H) (enabled : Bool) (branch : Branch H) : Course :=
  if branch.isFinished || !enabled then .pass
  else match settings.placeholder with
    | some text =>
        if branch.wantsPlaceholder then .showPlaceholder text
        else settings.courseOnInput branch
    | none => settings.courseOnInput branch

def addPlaceholder (settings : Settings H) (text : Text) (branch : Branch H) : Item H := do
  let shown ← branch.add { content := text, kind := .placeholder, marker := settings.marker }
  return shown.finish

/-- What is yielded if the matching yields nothing: on a branch without input,
a copy of it that shows the placeholder. -/
def fallback (settings : Settings H) (branch : Branch H) : Action H (Option (Item H)) :=
  match settings.placeholder with
  | some text =>
      if branch.hasInput then pure none
      else do return some (settings.addPlaceholder text (← branch.fork))
  | none => pure none

def leave (settings : Settings H) : Item H → Action H (Item H)
  | .ok branch => do
      let left := branch.popStack
      settings.onYield left
      return .ok left
  | .error cause => return .error cause

end Settings

def Parser.around {H : Host} (name : String) (enabled : Bool) (settings : Settings H)
    (matching : Step H) : Parser H where
  name
  start branch :=
    match settings.course enabled branch with
    | .pass => pure (.one (.ok branch))
    | .showPlaceholder text => pure (.one (settings.addPlaceholder text branch))
    | .finish => pure (.one (.ok branch.finish))
    | .proceed => do
        let fallback ← settings.fallback branch
        let run ← matching (branch.pushStack name)
        return (run.mapAction settings.leave).orElse fallback

/-- A kind of parser: how it is named, what it asks of its settings, how it
completes them, and how it continues a branch. -/
structure Matcher (H : Host) where
  name : String
  check : Settings H → Except Error Unit := fun _ => .ok ()
  prepare : Settings H → Except Error (Settings H) := .ok
  step : Settings H → Step H

def Matcher.build {H : Host} (matcher : Matcher H) (enabled : Bool) (settings : Settings H) :
    Except Error (Parser H) := do
  matcher.check settings
  let prepared ← matcher.prepare settings
  return .around matcher.name enabled prepared (matcher.step prepared)

end Typeahead
