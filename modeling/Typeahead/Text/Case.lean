import Typeahead.Text.Basic
import Typeahead.Text.CaseTable

namespace Typeahead.Text

/-! Comparison of characters up to case.

Two characters agree when they are equal or, unless case matters, when their
full lower-case forms are equal.  The lower-case form of a character depends on
that character alone. -/

/-- The full lower-case form; only `İ` has more than one character in it. -/
def lower (letter : Char) : List Char :=
  if letter.toNat < 128 then [letter.toLower]
  else if letter = 'İ' then ['i', '\u0307']
  else match lowerRanges.find? (·.covers letter.toNat) with
    | some range => [Char.ofNat (range.image letter.toNat)]
    | none => [letter]

def agree (caseSensitive : Bool) (left right : Char) : Bool :=
  left == right || (!caseSensitive && lower left == lower right)

theorem agree_sensitive (left right : Char) : agree true left right = (left == right) := by
  simp [agree]

theorem agree_insensitive_iff (left right : Char) :
    agree false left right = true ↔ lower left = lower right := by
  constructor
  · intro same
    simp only [agree, Bool.or_eq_true, beq_iff_eq, Bool.not_false, Bool.true_and] at same
    rcases same with equal | folded
    · rw [equal]
    · exact folded
  · intro folded
    simp [agree, folded]

@[simp] theorem agree_refl (caseSensitive : Bool) (letter : Char) :
    agree caseSensitive letter letter = true := by
  simp [agree]

theorem agree_comm (caseSensitive : Bool) (left right : Char) :
    agree caseSensitive left right = agree caseSensitive right left := by
  unfold agree
  rw [Bool.beq_comm (a := left), Bool.beq_comm (a := lower left)]

theorem agree_trans {caseSensitive : Bool} {left middle right : Char}
    (first : agree caseSensitive left middle = true)
    (second : agree caseSensitive middle right = true) :
    agree caseSensitive left right = true := by
  cases caseSensitive with
  | true =>
      rw [agree_sensitive, beq_iff_eq] at *
      exact first.trans second
  | false =>
      rw [agree_insensitive_iff] at *
      exact first.trans second

theorem agree_insensitive_of_agree {caseSensitive : Bool} {left right : Char}
    (same : agree caseSensitive left right = true) : agree false left right = true := by
  cases caseSensitive with
  | true =>
      rw [agree_sensitive, beq_iff_eq] at same
      simp [same]
  | false => exact same

end Typeahead.Text
