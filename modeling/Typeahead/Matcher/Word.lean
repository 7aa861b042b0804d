import Typeahead.Matcher.Literal

namespace Typeahead

/-! Words: a text or a child between spaces.

A space is required in front of a word unless it opens the branch, and behind it
unless the input ends there; at the end of the input the space is suggested. -/

structure Word where
  text : Option Text := none
deriving Repr, DecidableEq

namespace Word

variable {H : Host}

/-- Secures the separator in front of the word; `none` when the input goes on
without one. -/
def opened? (marker : Option Marker) (branch : Branch H) : Option (Item H) :=
  if !branch.hasParts || branch.spelled.endsWithSpace then some (.ok branch)
  else if branch.input.startsWithSpace then
    some (branch.add { content := Text.space, kind := .input, marker })
  else if branch.hasInput then none
  else some (branch.add { content := Text.space, kind := .whitespace, marker })

def closed? (marker : Option Marker) (branch : Branch H) : Option (Item H) :=
  if branch.input.startsWithSpace then
    some (branch.add { content := Text.space, kind := .input, marker })
  else if branch.spelled.endsWithSpace || branch.isFinished then some (.ok branch)
  else if branch.hasInput then none
  else some (branch.add { content := Text.space, kind := .suggestion, marker })

def closeItem? (marker : Option Marker) : Item H → Option (Item H)
  | .ok branch => closed? marker branch
  | .error cause => some (.error cause)

def step (settings : Settings H) : Step H := fun branch =>
  match opened? settings.marker branch, settings.children with
  | none, _ => return .empty
  | some (.error cause), _ => return .one (.error cause)
  | some (.ok _), [] => return .one (.error .wordMissingContent)
  | some (.ok branch), child :: _ => do
      return (← child.start branch).filterMap (closeItem? settings.marker)

def check (word : Word) (settings : Settings H) : Except Error Unit :=
  match word.text with
  | some text =>
      if !settings.children.isEmpty then .error .wordTextAndChild
      else if text.isEmpty then .error .wordMissingContent
      else .ok ()
  | none =>
      if settings.children.isEmpty then .error .wordMissingContent
      else settings.expectChildren "word" 1

/-- A word of text becomes a word around a literal, which shares its marker and
its emissions. -/
def prepare (word : Word) (settings : Settings H) : Except Error (Settings H) :=
  match word.text with
  | none => .ok settings
  | some text => do
      let literal : Literal := { text }
      let inner ← literal.matcher.build true
        { marker := settings.marker, onEmission := settings.onEmission }
      return { settings with children := [inner] }

def matcher (word : Word) : Matcher H where
  name := "word"
  check := word.check
  prepare := word.prepare
  step := step

end Word

end Typeahead
