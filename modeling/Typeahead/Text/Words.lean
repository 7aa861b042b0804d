import Typeahead.Text.Basic

namespace Typeahead.Text

/-! Word ends under a list of delimiters.

A delimiter run is what remains of stripping, again and again, the first listed
delimiter that the text starts with.  A word reaches to the next delimiter or to
the end, and holds at least one character; empty delimiters never fit. -/

def delimiter? (delimiters : List Text) (text : Text) : Option Text :=
  delimiters.find? fun delimiter => !delimiter.isEmpty && delimiter.isPrefixOf text

theorem delimiter?_length_pos {delimiters : List Text} {text delimiter : Text}
    (found : delimiter? delimiters text = some delimiter) : 0 < delimiter.length := by
  have fits := List.find?_some found
  simp only [Bool.and_eq_true, Bool.not_eq_true', List.isEmpty_eq_false_iff] at fits
  exact List.length_pos_iff.mpr fits.1

def delimiterRun (delimiters : List Text) : Text → Nat
  | [] => 0
  | letter :: rest =>
      match found : delimiter? delimiters (letter :: rest) with
      | some delimiter =>
          have : 0 < delimiter.length := delimiter?_length_pos found
          delimiter.length + delimiterRun delimiters ((letter :: rest).drop delimiter.length)
      | none => 0
termination_by text => text.length
decreasing_by
  simp only [List.length_drop, List.length_cons]
  omega

def wordLength (delimiters : List Text) : Text → Nat
  | [] => 0
  | letter :: rest =>
      if (delimiter? delimiters (letter :: rest)).isSome then 0
      else wordLength delimiters rest + 1

/-- Where the words of `text` end, counted from `offset` characters before it.
Text that is one delimiter run ends there once. -/
def wordEndsFrom (delimiters : List Text) (offset : Nat) (text : Text) : List Nat :=
  match text.drop (delimiterRun delimiters text) with
  | [] => if text.isEmpty then [] else [offset + text.length]
  | _ :: body =>
      let wordEnd := delimiterRun delimiters text + 1 + wordLength delimiters body
      let next := wordEnd + delimiterRun delimiters (text.drop wordEnd)
      (offset + wordEnd) ::
        (if text.length ≤ next then [] else wordEndsFrom delimiters (offset + next) (text.drop next))
termination_by text.length
decreasing_by
  simp only [List.length_drop]
  omega

def wordEnds (delimiters : List Text) (text : Text) : List Nat :=
  wordEndsFrom delimiters 0 text

/-- Every lead of the text that ends where a word does, shortest first. -/
def wordPrefixes (delimiters : List Text) (text : Text) : List Text :=
  (wordEnds delimiters text).map text.take

def spacedPieces (text : Text) : Nat := text.count ' ' + 1

end Typeahead.Text
