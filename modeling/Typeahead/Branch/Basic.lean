import Typeahead.Action
import Typeahead.Context
import Typeahead.Error
import Typeahead.Part
import Typeahead.Score
import Typeahead.Text.Bytes
import Typeahead.Text.Overlap

namespace Typeahead

/-! A branch is one way to read the input.

It records the parts added so far, how much of the given input they cover,
score factors, the owner's data and the names of the active parsers.  Input
parts must spell what is left of the input, so the spelled text stays a lead of
the given input, up to case, until nothing is left.

Parts and factors are added by calls that change a branch in place and that may
fail on the way. -/

/-- How the owner's data begin and how a copy of a branch gets its own. -/
structure Holder (H : Host) where
  init : Action H H.Data
  copy : H.Data → Action H H.Data

def Holder.plain {H : Host} (init : H.Data) : Holder H := ⟨pure init, pure⟩

structure Branch (H : Host) where
  given : Text
  holder : Holder H
  /-- The number of copies between this branch and its root. -/
  lineage : Nat := 0
  parts : List Part := []
  factors : List Float := []
  data : H.Data
  contexts : Contexts H := {}
  /-- The active parsers, outermost first. -/
  stack : List String := []
  marked : Bool := false
  /-- How many bytes of the given input are covered. -/
  consumed : Nat := 0
  /-- A part that was not typed has been added behind the input. -/
  pastEnd : Bool := false

namespace Branch

variable {H : Host}

def root (given : Text) (holder : Holder H) : Action H (Branch H) := do
  let data ← holder.init
  return { given, holder, data }

def fork (branch : Branch H) : Action H (Branch H) := do
  let data ← branch.holder.copy branch.data
  return { branch with data, lineage := branch.lineage + 1 }

/-- The given input behind what is covered; nothing where it cannot be cut there. -/
def ahead (branch : Branch H) : Text := (branch.given.dropBytes? branch.consumed).getD []

def input (branch : Branch H) : Text := if branch.pastEnd then [] else branch.ahead

def hasInput (branch : Branch H) : Bool := !branch.input.isEmpty

def hasParts (branch : Branch H) : Bool := !branch.parts.isEmpty

def hasKind (branch : Branch H) (kind : PartKind) : Bool :=
  branch.parts.any (·.kind == kind)

/-- Every part was typed in full; holds also without parts. -/
def isTyped (branch : Branch H) : Bool :=
  branch.parts.all (·.kind == .input)

def spelled (branch : Branch H) : Text := Part.spelled branch.parts

def score (branch : Branch H) : Float := Score.product branch.factors

/-- Finished branches pass through every further parser untouched. -/
def isFinished (branch : Branch H) : Bool := branch.marked || branch.hasKind .placeholder

def finish (branch : Branch H) : Branch H := { branch with marked := true }

/-- Whether a parser shows its placeholder on this branch instead of running:
there was no input at all, or it is used up and some part was not typed. -/
def wantsPlaceholder (branch : Branch H) : Bool :=
  branch.given.isEmpty || (!branch.hasInput && !branch.isTyped)

def stackDescription (branch : Branch H) : String := Typeahead.stackDescription branch.stack

def violated (branch : Branch H) (violation : Violation) : Error :=
  .violated branch.stack violation

def diverges (branch : Branch H) (content : Text) : Error :=
  branch.violated (.diverges branch.input content)

def withPart (branch : Branch H) (part : Part) : Branch H :=
  { branch with parts := branch.parts ++ [part] }

/-- Moves behind the input for content that was not typed. -/
def leaveInput (branch : Branch H) (content : Text) : Branch H :=
  if content.isEmpty then branch else { branch with pastEnd := true }

/-! ### Calls that can fail -/

/-- A call changes a branch in place.  Where it fails, the changes made before stay. -/
abbrev Call (H : Host) := EStateM Error (Branch H) Unit

namespace Call

/-- The branch that a call leaves behind, also one that fails. -/
def leave (call : Call H) (branch : Branch H) : Branch H :=
  match call branch with
  | .ok _ next | .error _ next => next

/-- The branch behind a call that succeeds; one on which a call fails is given up. -/
def extend (call : Call H) (branch : Branch H) : Except Error (Branch H) :=
  match call branch with
  | .ok _ next => .ok next
  | .error cause _ => .error cause

def addScore (factor : Float) : Call H := do
  let branch ← get
  if Score.inRange factor then set { branch with factors := branch.factors ++ [factor] }
  else throw (branch.violated (.scoreOutOfRange factor))

/-- Covers as much of the input as spells the content, up to case. -/
def consume (content : Text) : Call H := do
  let branch ← get
  match Text.splitLead? false branch.input content with
  | some (spelled, _) => set { branch with consumed := branch.consumed + spelled.byteSize }
  | none => throw (branch.diverges content)

/-- What a part of the given kind and content does to the position. -/
def advance (content : Text) : PartKind → Call H
  | .input => do
      let branch ← get
      if branch.hasKind .suggestion then throw (branch.violated .inputAfterSuggestion)
      else consume content
  | .whitespace => do
      let branch ← get
      if branch.hasInput then consume content else set { branch with pastEnd := true }
  | .suggestion | .placeholder => do
      let branch ← get
      if branch.hasInput then throw (branch.diverges content)
      else set (branch.leaveInput content)
  | .fuzzy => pure ()

/-- Adds a part at the end, if the rules of branches allow it. -/
def add (part : Part) : Call H := do
  let branch ← get
  if part.content.isEmpty && part.kind != .placeholder then throw (branch.violated .emptyPart)
  else
    advance part.content part.kind
    modify (·.withPart part)

end Call

def addScore (branch : Branch H) (factor : Float) : Except Error (Branch H) :=
  (Call.addScore factor).extend branch

def add (branch : Branch H) (part : Part) : Except Error (Branch H) :=
  (Call.add part).extend branch

def pushStack (branch : Branch H) (name : String) : Branch H :=
  { branch with stack := branch.stack ++ [name] }

def popStack (branch : Branch H) : Branch H :=
  { branch with stack := branch.stack.dropLast }

end Branch

end Typeahead
