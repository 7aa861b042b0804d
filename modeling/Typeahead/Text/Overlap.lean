import Typeahead.Text.Case

namespace Typeahead.Text

/-! Comparison of typed text with a piece of fixed text.

`splitLead?` cuts a text behind a given lead; `overlap?` asks in both directions
which of two texts starts with the other. -/

/-- The part of `text` that spells `lead`, and what follows it. -/
def splitLead? (caseSensitive : Bool) : (text lead : Text) → Option (Text × Text)
  | text, [] => some ([], text)
  | [], _ :: _ => none
  | letter :: text, expected :: lead =>
      if agree caseSensitive letter expected then
        (splitLead? caseSensitive text lead).map fun (spelled, rest) => (letter :: spelled, rest)
      else none

/-- How a lead is looked for, and in whose spelling it is reported. -/
structure LeadOptions where
  caseSensitive : Bool := false
  /-- Report the lead as it was asked for and not as the text spells it. -/
  keepLeadSpelling : Bool := false
deriving Repr, DecidableEq

/-- Splits `text` behind `lead`; `none` when it does not start with it. -/
def startsWith? (options : LeadOptions) (text lead : Text) : Option (Text × Text) :=
  (splitLead? options.caseSensitive text lead).map fun (spelled, rest) =>
    (if options.keepLeadSpelling then lead else spelled, rest)

/-- How typed input relates to a fixed text. -/
inductive Overlap where
  /-- The input starts with the whole text; `rest` is the input behind it. -/
  | full (matched rest : Text)
  /-- The input ends inside the text; both parts are spelled as in the text. -/
  | begun (typed suggestion : Text)
deriving Repr, DecidableEq

def Overlap.isFull : Overlap → Bool
  | .full _ _ => true
  | .begun _ _ => false

/-- Compares input and text in both directions; `none` when they disagree. -/
def overlap? (caseSensitive : Bool) (input text : Text) : Option Overlap :=
  match splitLead? caseSensitive input text with
  | some (_, rest) => some (.full text rest)
  | none => (splitLead? caseSensitive text input).map fun (typed, suggestion) =>
      .begun typed suggestion

theorem splitLead?_nil (caseSensitive : Bool) (text : Text) :
    splitLead? caseSensitive text [] = some ([], text) := by
  cases text <;> rfl

/-- A split loses nothing and cuts at the length of the lead. -/
theorem append_of_splitLead? {caseSensitive : Bool} {text lead spelled rest : Text}
    (found : splitLead? caseSensitive text lead = some (spelled, rest)) :
    spelled ++ rest = text ∧ spelled.length = lead.length := by
  induction lead generalizing text spelled rest with
  | nil =>
      rw [splitLead?_nil] at found
      cases found
      simp
  | cons expected lead ih =>
      cases text with
      | nil => simp [splitLead?] at found
      | cons letter text =>
          simp only [splitLead?] at found
          split at found
          · obtain ⟨⟨inner, tail⟩, split, same⟩ := Option.map_eq_some_iff.mp found
            cases same
            have shorter := ih split
            simp [shorter.1, shorter.2]
          · contradiction

end Typeahead.Text
