namespace Typeahead

structure ParseOptions where
  maxResults : Option Nat := none
  requireEntireInput : Bool := true
deriving Repr, DecidableEq

namespace ParseOptions

def withMaxResults (options : ParseOptions) (count : Nat) : ParseOptions :=
  { options with maxResults := some count }

def withRequireEntireInput (options : ParseOptions) (require : Bool) : ParseOptions :=
  { options with requireEntireInput := require }

def allowPartial (options : ParseOptions) : ParseOptions :=
  options.withRequireEntireInput false

end ParseOptions

end Typeahead
