import Typeahead.Matcher.Choice
import Typeahead.Matcher.Definition
import Typeahead.Matcher.Freetext
import Typeahead.Matcher.Number
import Typeahead.Matcher.Pick
import Typeahead.Matcher.Repetition
import Typeahead.Matcher.Sequence
import Typeahead.Matcher.Whitespace
import Typeahead.Matcher.Word

namespace Typeahead

/-! Grammars as data.

A rule says what kind of parser it describes, what that parser is given, and the
rules of its children.  Building a rule builds its children in order and then
checks the rule itself; the first error is the error of the whole. -/

inductive Kind (H : Host) where
  | literal (shape : Literal)
  | number (shape : Number)
  | word (shape : Word)
  | sequence
  | fork
  | pick (shape : Pick)
  | optional
  | repetition (shape : Repetition)
  | freetext (shape : Freetext H)
  | whitespace
  | defined (shape : Defined H)
  /-- A way of matching that the owner wrote. -/
  | custom (shape : Matcher H)

namespace Kind

variable {H : Host}

def matcher : Kind H → Matcher H
  | .literal shape => shape.matcher
  | .number shape => shape.matcher
  | .word shape => shape.matcher
  | .sequence => Sequence.matcher
  | .fork => Fork.matcher
  | .pick shape => shape.matcher
  | .optional => Optional.matcher
  | .repetition shape => shape.matcher
  | .freetext shape => shape.matcher
  | .whitespace => Whitespace.matcher
  | .defined shape => shape.matcher
  | .custom shape => shape

/-- The kinds that run no code of the owner but handlers, hooks and filters. -/
def isBuiltIn : Kind H → Bool
  | .defined _ | .custom _ => false
  | _ => true

end Kind

structure RuleOptions (H : Host) where
  marker : Option Marker := none
  placeholder : Option Text := none
  requiresInput : Bool := false
  /-- Whether the parser is on, from its own kind.  A parser that is off passes
  branches on. -/
  enabled : Kind H → Bool := fun _ => true
  onYield : Branch H → Action H Unit := fun _ => pure ()
  onEmission : Option (Emission H → H.Data → Action H (Option H.Data)) := none

inductive Rule (H : Host) where
  | node (kind : Kind H) (options : RuleOptions H) (children : List (Rule H))

def RuleOptions.settings {H : Host} (options : RuleOptions H) (children : List (Parser H)) :
    Settings H where
  children
  marker := options.marker
  placeholder := options.placeholder
  requiresInput := options.requiresInput
  onYield := options.onYield
  onEmission := options.onEmission

def Kind.build {H : Host} (kind : Kind H) (options : RuleOptions H)
    (children : List (Parser H)) : Except Error (Parser H) :=
  kind.matcher.build (options.enabled kind) (options.settings children)

mutual

def Rule.build {H : Host} : Rule H → Except Error (Parser H)
  | .node kind options children => do kind.build options (← Rule.buildAll children)

def Rule.buildAll {H : Host} : List (Rule H) → Except Error (List (Parser H))
  | [] => return []
  | rule :: others => do
      let parser ← rule.build
      return parser :: (← Rule.buildAll others)

end

end Typeahead
