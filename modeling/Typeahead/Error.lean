import Typeahead.Text.Basic
import Typeahead.Decimal.Shortest

namespace Typeahead

/-! Causes of failure.

Most errors are found while a grammar is built.  A violation is found while a
branch is extended and carries the parsers that were active then.  Input that
does not match is no error. -/

/-- A rule of branches that an extension would break. -/
inductive Violation where
  | emptyPart
  | inputAfterSuggestion
  /-- The content does not lie over what is left of the input. -/
  | diverges (remaining content : Text)
  /-- Score factors lie above 0 and are at most 1. -/
  | scoreOutOfRange (factor : Float)

inductive Error where
  | missingParser
  | missingChildren (parser : String)
  | childCount (parser : String) (expected found : Nat)
  | repeatLimitTooLarge (limit max : Nat)
  | emptyGlue
  | suggestionsRequireInteger
  | suggestionsRequireBounds
  | wordTextAndChild
  | wordMissingContent
  | invalidOptions (parser reason : String)
  /-- `stack` names the active parsers, outermost first. -/
  | violated (stack : List String) (violation : Violation)

/-- Names of active parsers as diagnostics show them, outermost first. -/
def stackDescription (stack : List String) : String := " > ".intercalate stack

def Violation.message : Violation → String
  | .emptyPart => "match content cannot be empty"
  | .inputAfterSuggestion => "an 'input' match cannot follow a 'suggestion' match"
  | .diverges remaining content =>
      "match '" ++ content.toString ++ "' does not match remaining input '" ++
        remaining.toString ++ "'"
  | .scoreOutOfRange factor =>
      "score factor " ++ Decimal.shortest factor ++ " is outside of (0, 1]"

namespace Error

def message : Error → String
  | .missingParser => "a parser is required to build a grammar"
  | .missingChildren parser => parser ++ " requires at least one child parser"
  | .childCount parser expected found =>
      parser ++ " requires exactly " ++ toString expected ++ " child parser(s), found " ++
        toString found
  | .repeatLimitTooLarge limit max =>
      "repeat limit " ++ toString limit ++ " exceeds the maximum of " ++ toString max
  | .emptyGlue => "repeat requires at least one glue string"
  | .suggestionsRequireInteger =>
      "number suggestions can only be generated with `only_integer`"
  | .suggestionsRequireBounds =>
      "number suggestions require both `min` and `max` bounds"
  | .wordTextAndChild => "word accepts either text or a child parser, not both"
  | .wordMissingContent => "word requires either text or a child parser"
  | .invalidOptions parser reason => "invalid options for " ++ parser ++ ": " ++ reason
  | .violated stack violation =>
      "parser error (" ++ stackDescription stack ++ "): " ++ violation.message

def isConfiguration : Error → Bool
  | .violated _ _ => false
  | _ => true

end Error

end Typeahead
