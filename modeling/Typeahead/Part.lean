import Typeahead.Text.Basic

namespace Typeahead

/-! The parts that a branch is made of. -/

/-- The tag of a field of a grammar.  Markers of one name with different
identities are different markers. -/
structure Marker where
  id : Nat
  name : String
deriving Repr, DecidableEq

inductive PartKind where
  | input
  /-- The untyped end of a text that was begun. -/
  | suggestion
  /-- Characters of a pattern that the typed text left out. -/
  | fuzzy
  /-- A stand-in for content that is still expected. -/
  | placeholder
  /-- A separator between words, typed or not. -/
  | whitespace
deriving Repr, DecidableEq

/-- A piece of text on a branch, with its role and the field it belongs to. -/
structure Part where
  content : Text
  kind : PartKind
  marker : Option Marker := none
deriving Repr, DecidableEq

namespace Part

/-- Parts that belong to the line, as typed or to be typed. -/
def isLine (part : Part) : Bool := part.kind != .placeholder

/-- Parts whose text stands for a stretch of the line without omissions. -/
def isSpelled (part : Part) : Bool := part.kind != .fuzzy

/-- Hides the marker unless it is among those shown. -/
def redact (visible : List Marker) (part : Part) : Part :=
  { part with marker := part.marker.filter (visible.contains ·) }

def contents (parts : List Part) : Text := parts.flatMap (·.content)

def spelled (parts : List Part) : Text := contents (parts.filter isSpelled)

end Part

end Typeahead
