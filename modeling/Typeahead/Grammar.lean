import Typeahead.Parser
import Typeahead.ParseOptions
import Typeahead.ParseResult

namespace Typeahead

/-! A grammar is a root parser and the way its branches come by their data.

Parsing runs the root parser on a fresh branch.  Branches that left input
uncovered are dropped unless partial parses are wanted; errors are always
yielded and do not count as results. -/

structure Grammar (H : Host) where
  parser : Parser H
  holder : Holder H

/-- A branch that the options let through as a result, or an error. -/
def ParseOptions.result? {H : Host} (options : ParseOptions) :
    Item H → Option (Except Error (ParseResult H))
  | .ok branch =>
      if options.requireEntireInput && branch.hasInput then none
      else some (.ok branch.toResult)
  | .error cause => some (.error cause)

def isResult {α : Type} : Except Error α → Bool
  | .ok _ => true
  | .error _ => false

/-- What the options leave of the items of the root parser. -/
def ParseOptions.select {H : Host} (options : ParseOptions) (items : Run H (Item H)) :
    Run H (Except Error (ParseResult H)) :=
  let results := items.filterMap options.result?
  match options.maxResults with
  | some cap => results.capped isResult cap
  | none => results

namespace Grammar

variable {H : Host}

def ofParser? (parser : Option (Parser H)) (holder : Holder H) : Except Error (Grammar H) :=
  match parser with
  | some parser => .ok { parser, holder }
  | none => .error .missingParser

/-- Begins the root parser on a fresh branch; the results come as the run is
pulled. -/
def results (grammar : Grammar H) (input : Text) (options : ParseOptions) :
    Action H (Run H (Except Error (ParseResult H))) := do
  let root ← Branch.root input grammar.holder
  return options.select (← grammar.parser.start root)

def parse (grammar : Grammar H) (input : Text) (options : ParseOptions) :
    Action H (Cursor H (Except Error (ParseResult H))) := do
  return .ofRun (← grammar.results input options)

def parseAll (grammar : Grammar H) (input : Text) (options : ParseOptions) :
    Action H (Except Error (List (ParseResult H))) := do
  (← grammar.results input options).collect

end Grammar

end Typeahead
