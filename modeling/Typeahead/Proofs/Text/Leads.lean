import Typeahead.Text.Blank
import Typeahead.Text.Numeral
import Typeahead.Text.Words

namespace Typeahead.Text

/-! What the scanners find is a lead of the text, and never empty. -/

theorem ofInt_ne_nil (value : Int) : ofInt value ≠ [] := by
  cases value with
  | ofNat magnitude => exact Nat.toDigits_ne_nil
  | negSucc below => exact List.cons_ne_nil _ _

theorem eq_space_append {text : Text} (opens : text.startsWithSpace = true) :
    text = space ++ text.tail := by
  cases text with
  | nil => simp [startsWithSpace] at opens
  | cons first rest =>
      have blank : first = ' ' := by simpa [startsWithSpace] using opens
      rw [blank]
      rfl

theorem lt_of_mem_wordEndsFrom {delimiters : List Text} {offset place : Nat} {text : Text}
    (member : place ∈ wordEndsFrom delimiters offset text) : offset < place := by
  induction offset, text using wordEndsFrom.induct delimiters with
  | case1 offset text covered empty =>
      rw [wordEndsFrom, covered] at member
      simp [empty] at member
  | case2 offset text covered nonempty =>
      rw [wordEndsFrom, covered] at member
      simp only [nonempty, Bool.false_eq_true, if_false, List.mem_singleton] at member
      have positive : 0 < text.length := List.length_pos_iff.mpr (by simpa using nonempty)
      omega
  | case3 offset text letter body ahead wordEnd next ih =>
      rw [wordEndsFrom, ahead] at member
      rcases List.mem_cons.mp member with rfl | found
      · omega
      · split at found
        · simp at found
        · rename_i more
          have behind := ih more found
          omega

theorem wordEnds_capture {delimiters : List Text} {length : Nat} {text : Text}
    (member : length ∈ wordEnds delimiters text) : text.take length ≠ [] := by
  have positive : 0 < length := lt_of_mem_wordEndsFrom member
  intro empty
  rcases List.take_eq_nil_iff.mp empty with zero | nothing
  · omega
  · subst nothing
    simp [wordEnds, wordEndsFrom] at member

namespace Numeral

def fractionText : Option (Char × Text) → Text
  | some (separator, digits) => separator :: digits
  | none => []

theorem text_eq (numeral : Numeral) :
    numeral.text = (if numeral.negative then ['-'] else []) ++
      (numeral.whole ++ fractionText numeral.fraction) := by
  rw [← List.append_assoc]
  cases fraction : numeral.fraction <;> simp [text, fraction, fractionText]

theorem fraction?_prefix (text : Text) : fractionText (fraction? text) <+: text := by
  cases text with
  | nil => exact List.nil_prefix
  | cons first rest =>
      simp only [fraction?]
      split
      · exact (List.prefix_cons_inj first).mpr (List.takeWhile_prefix _)
      · exact List.nil_prefix

theorem sign_append (text : Text) :
    (if text.head? == some '-' then ['-'] else []) ++
      (if text.head? == some '-' then text.tail else text) = text := by
  cases text with
  | nil => rfl
  | cons first rest =>
      by_cases minus : first = '-'
      · subst minus
        rfl
      · simp [minus]

/-- The sign, the digits and the fraction are read one behind the other. -/
theorem leading?_prefix {integersOnly : Bool} {text : Text} {numeral : Numeral}
    (found : leading? integersOnly text = some numeral) :
    numeral.text <+: text ∧ numeral.text ≠ [] := by
  have signed := sign_append text
  dsimp only [leading?] at found
  generalize (if text.head? == some '-' then text.tail else text) = unsigned at found signed
  by_cases digits : unsigned.takeWhile Char.isDigit = []
  · simp [digits] at found
  · simp only [List.isEmpty_iff, digits, if_false, Option.some.injEq] at found
    have joined : unsigned.takeWhile Char.isDigit ++ unsigned.dropWhile Char.isDigit = unsigned :=
      List.takeWhile_append_dropWhile
    have behind : fractionText numeral.fraction <+: unsigned.dropWhile Char.isDigit := by
      rw [← found]
      cases integersOnly with
      | true => exact List.nil_prefix
      | false => exact fraction?_prefix _
    have whole : numeral.whole = unsigned.takeWhile Char.isDigit := by rw [← found]
    have sign : numeral.negative = (text.head? == some '-') := by rw [← found]
    obtain ⟨rest, behind⟩ := behind
    constructor
    · refine ⟨rest, ?_⟩
      rw [text_eq, sign, whole, List.append_assoc, List.append_assoc, behind, joined, signed]
    · rw [text_eq, whole]
      simp [digits]

end Numeral

end Typeahead.Text
