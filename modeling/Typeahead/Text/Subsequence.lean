import Typeahead.Text.Case

namespace Typeahead.Text

/-! Typed input as a subsequence of a pattern.

The pattern is read once from the left; each of its characters is typed when it
agrees with the next character of the input, and skipped otherwise.  Once the
input is used up, the rest of the pattern is pending. -/

inductive SegmentKind where
  | typed
  | skipped
  | pending
deriving Repr, DecidableEq

/-- A run of characters of the pattern with one fate. -/
structure Segment where
  content : Text
  kind : SegmentKind
deriving Repr, DecidableEq

structure SubsequenceOptions where
  caseSensitive : Bool := false
  /-- Cut input that is longer than the pattern instead of refusing it. -/
  truncate : Bool := false
deriving Repr, DecidableEq

/-- The fate of each character of the pattern; `none` when input is left over. -/
def fates? (caseSensitive : Bool) : (pattern input : Text) → Option (List (SegmentKind × Char))
  | pattern, [] => some (pattern.map (.pending, ·))
  | [], _ :: _ => none
  | letter :: pattern, next :: input =>
      if agree caseSensitive letter next then
        (fates? caseSensitive pattern input).map ((.typed, letter) :: ·)
      else
        (fates? caseSensitive pattern (next :: input)).map ((.skipped, letter) :: ·)

def runs : List (SegmentKind × Char) → List Segment
  | [] => []
  | (kind, letter) :: rest =>
      match runs rest with
      | ⟨content, next⟩ :: segments =>
          if kind = next then ⟨letter :: content, next⟩ :: segments
          else ⟨[letter], kind⟩ :: ⟨content, next⟩ :: segments
      | [] => [⟨[letter], kind⟩]

/-- The pattern in segments, or `none` when the input is no subsequence of it.
Input equal to the pattern is one typed segment, also when both are empty. -/
def segments? (options : SubsequenceOptions) (input pattern : Text) : Option (List Segment) :=
  if pattern.length < input.length && !options.truncate then none
  else
    let input := input.take pattern.length
    if input = pattern then some [⟨pattern, .typed⟩]
    else (fates? options.caseSensitive pattern input).map runs

end Typeahead.Text
