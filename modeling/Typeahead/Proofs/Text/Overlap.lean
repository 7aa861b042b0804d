import Typeahead.Proofs.Text.Alike
import Typeahead.Proofs.Text.Cuts

namespace Typeahead.Text

/-! Which of two texts starts with the other.

The comparison in both directions is answered by the lengths of the texts and by the
characters at each place.  It is also followed down to the bytes of UTF-8: an offset is
counted in the text that is cut, whatever the size of the characters that it is compared
with, and so there are whole characters on both sides of every cut. -/

/-- The characters agree at every place that both texts have. -/
def AgreeThroughout (caseSensitive : Bool) (left right : Text) : Prop :=
  ∀ place, (inLeft : place < left.length) → (inRight : place < right.length) →
    agree caseSensitive left[place] right[place] = true

variable {caseSensitive : Bool} {input text lead front behind : Text}

theorem AgreeThroughout.symm {left right : Text}
    (same : AgreeThroughout caseSensitive left right) :
    AgreeThroughout caseSensitive right left := by
  intro place inRight inLeft
  rw [agree_comm]
  exact same place inLeft inRight

theorem alike_take_iff : Alike caseSensitive (text.take lead.length) lead ↔
    lead.length ≤ text.length ∧ AgreeThroughout caseSensitive text lead := by
  rw [Alike, List.forall₂_iff_get]
  constructor
  · intro alike
    obtain ⟨length, same⟩ := alike
    rw [List.length_take] at length
    refine ⟨by omega, fun place inText inLead => ?_⟩
    simpa using same place (by rw [List.length_take]; omega) inLead
  · intro same
    obtain ⟨shorter, same⟩ := same
    refine ⟨by rw [List.length_take]; omega, fun place _ inLead => ?_⟩
    simpa using same place (by omega) inLead

/-- A text starts with another one in one way at most: the cut is made where the other one
ends. -/
theorem starts_iff : (text = front ++ behind ∧ Alike caseSensitive front lead) ↔
    lead.length ≤ text.length ∧ AgreeThroughout caseSensitive text lead ∧
      front = text.take lead.length ∧ behind = text.drop lead.length := by
  constructor
  · intro starts
    obtain ⟨rfl, alike⟩ := starts
    have front_eq : front = (front ++ behind).take lead.length := by
      rw [← alike.length_eq, List.take_left]
    have behind_eq : behind = (front ++ behind).drop lead.length := by
      rw [← alike.length_eq, List.drop_left]
    have taken : Alike caseSensitive ((front ++ behind).take lead.length) lead :=
      front_eq ▸ alike
    obtain ⟨shorter, same⟩ := alike_take_iff.mp taken
    exact ⟨shorter, same, front_eq, behind_eq⟩
  · intro starts
    obtain ⟨shorter, same, rfl, rfl⟩ := starts
    exact ⟨(List.take_append_drop lead.length text).symm, alike_take_iff.mpr ⟨shorter, same⟩⟩

theorem splitLead?_iff : splitLead? caseSensitive text lead = some (front, behind) ↔
    lead.length ≤ text.length ∧ AgreeThroughout caseSensitive text lead ∧
      front = text.take lead.length ∧ behind = text.drop lead.length :=
  splitLead?_eq_some_iff.trans starts_iff

/-! ### The three answers -/

theorem full_iff {matched rest : Text} :
    overlap? caseSensitive input text = some (.full matched rest) ↔
      text.length ≤ input.length ∧ AgreeThroughout caseSensitive input text ∧
        matched = text ∧ rest = input.drop text.length := by
  rw [overlap?_eq_full_iff]
  constructor
  · intro full
    obtain ⟨matched_eq, spelled, starts⟩ := full
    obtain ⟨shorter, same, _, rest_eq⟩ := starts_iff.mp starts
    exact ⟨shorter, same, matched_eq, rest_eq⟩
  · intro full
    obtain ⟨shorter, same, matched_eq, rest_eq⟩ := full
    exact ⟨matched_eq, input.take text.length, starts_iff.mpr ⟨shorter, same, rfl, rest_eq⟩⟩

theorem begun_iff {typed suggestion : Text} :
    overlap? caseSensitive input text = some (.begun typed suggestion) ↔
      input.length < text.length ∧ AgreeThroughout caseSensitive input text ∧
        typed ++ suggestion = text ∧ typed.length = input.length := by
  rw [overlap?_eq_begun_iff]
  constructor
  · intro begun
    obtain ⟨split, pending, alike⟩ := begun
    obtain ⟨_, same, _, _⟩ := starts_iff.mp ⟨split, alike⟩
    have length := alike.length_eq
    have positive := List.length_pos_iff.mpr pending
    refine ⟨?_, same.symm, split.symm, length⟩
    rw [split, List.length_append]
    omega
  · intro begun
    obtain ⟨shorter, same, rfl, length⟩ := begun
    rw [List.length_append] at shorter
    have cut : typed = (typed ++ suggestion).take input.length := by
      rw [← length, List.take_left]
    have left : suggestion = (typed ++ suggestion).drop input.length := by
      rw [← length, List.drop_left]
    obtain ⟨_, alike⟩ := starts_iff.mpr
      ⟨by rw [List.length_append]; omega, same.symm, cut, left⟩
    exact ⟨rfl, List.length_pos_iff.mp (by omega), alike⟩

theorem agree_of_overlap {overlap : Overlap}
    (found : overlap? caseSensitive input text = some overlap) :
    AgreeThroughout caseSensitive input text := by
  cases overlap with
  | full matched rest => exact (full_iff.mp found).2.1
  | begun typed suggestion => exact (begun_iff.mp found).2.1

theorem exists_overlap (same : AgreeThroughout caseSensitive input text) :
    ∃ overlap, overlap? caseSensitive input text = some overlap := by
  by_cases shorter : text.length ≤ input.length
  · exact ⟨_, full_iff.mpr ⟨shorter, same, rfl, rfl⟩⟩
  · refine ⟨_, begun_iff.mpr ⟨by omega, same, List.take_append_drop input.length text, ?_⟩⟩
    rw [List.length_take]
    omega

theorem none_iff : overlap? caseSensitive input text = none ↔
    ∃ place, ∃ (inInput : place < input.length) (inText : place < text.length),
      agree caseSensitive input[place] text[place] = false := by
  have either : overlap? caseSensitive input text = none ↔
      ¬ AgreeThroughout caseSensitive input text := by
    constructor
    · intro unlike same
      obtain ⟨overlap, found⟩ := exists_overlap same
      rw [unlike] at found
      contradiction
    · intro unlike
      cases found : overlap? caseSensitive input text with
      | none => rfl
      | some overlap => exact absurd (agree_of_overlap found) unlike
  rw [either, AgreeThroughout]
  push Not
  simp only [ne_eq, Bool.not_eq_true]

/-! ### Cuts between bytes -/

/-- The offset behind the characters that spell the lead: the one of the next character, or
the end of the text. -/
def leadEnd? (caseSensitive : Bool) (textEnd : Nat) : List (Nat × Char) → Text → Option Nat
  | [], [] => some textEnd
  | (offset, _) :: _, [] => some offset
  | [], _ :: _ => none
  | (_, letter) :: letters, expected :: lead =>
      if agree caseSensitive letter expected then leadEnd? caseSensitive textEnd letters lead
      else none

/-- Counted in bytes, the search ends behind the bytes of what it found. -/
theorem leadEnd?_eq (caseSensitive : Bool) (offset : Nat) (text lead : Text) :
    leadEnd? caseSensitive (offset + text.byteSize) (byteOffsets offset text) lead =
      (splitLead? caseSensitive text lead).map fun split => offset + split.1.byteSize := by
  induction lead generalizing offset text with
  | nil =>
      rw [splitLead?_nil]
      cases text with
      | nil => rfl
      | cons letter text => rfl
  | cons expected lead ih =>
      cases text with
      | nil => rfl
      | cons letter text =>
          simp only [byteOffsets, leadEnd?, splitLead?, byteSize_cons, ← Nat.add_assoc]
          split
          · rw [ih (offset + letter.utf8Size) text, Option.map_map]
            congr 1
            funext split
            simp only [Function.comp_apply, byteSize_cons, Nat.add_assoc]
          · rfl

/-- The Kelvin sign has three bytes, and the letter that it agrees with has one. -/
example : leadEnd? false 4 (byteOffsets 0 ['\u212A', 'b']) ['k'] = some 3 := by decide

theorem cutAt_of_splitLead? (found : splitLead? caseSensitive text lead = some (front, behind)) :
    ∃ offset, leadEnd? caseSensitive text.byteSize (byteOffsets 0 text) lead = some offset ∧
      CutAt text offset front behind := by
  have ends := leadEnd?_eq caseSensitive 0 text lead
  simp only [found, Option.map_some, Nat.zero_add] at ends
  obtain ⟨rfl, _⟩ := splitLead?_eq_some_iff.mp found
  exact ⟨front.byteSize, ends, cutAt_append front behind⟩

/-- The comparison answers that the whole text was typed, that the input ends inside of it, or
that the two differ at some place; and where it cuts one of them, it does so between
characters. -/
theorem overlap?_decides (caseSensitive : Bool) (input text : Text) :
    (∀ matched rest, overlap? caseSensitive input text = some (.full matched rest) ↔
      text.length ≤ input.length ∧ AgreeThroughout caseSensitive input text ∧
        matched = text ∧ rest = input.drop text.length) ∧
    (∀ typed suggestion, overlap? caseSensitive input text = some (.begun typed suggestion) ↔
      input.length < text.length ∧ AgreeThroughout caseSensitive input text ∧
        typed ++ suggestion = text ∧ typed.length = input.length) ∧
    (overlap? caseSensitive input text = none ↔
      ∃ place, ∃ (inInput : place < input.length) (inText : place < text.length),
        agree caseSensitive input[place] text[place] = false) ∧
    (∀ matched rest, overlap? caseSensitive input text = some (.full matched rest) →
      ∃ offset, leadEnd? caseSensitive input.byteSize (byteOffsets 0 input) text = some offset ∧
        CutAt input offset (input.take text.length) rest) ∧
    ∀ typed suggestion, overlap? caseSensitive input text = some (.begun typed suggestion) →
      suggestion ≠ [] ∧
        ∃ offset, leadEnd? caseSensitive text.byteSize (byteOffsets 0 text) input = some offset ∧
          CutAt text offset typed suggestion := by
  refine ⟨fun _ _ => full_iff, fun _ _ => begun_iff, none_iff, ?_, ?_⟩
  · intro matched rest found
    obtain ⟨shorter, same, _, rest_eq⟩ := full_iff.mp found
    exact cutAt_of_splitLead? (splitLead?_iff.mpr ⟨shorter, same, rfl, rest_eq⟩)
  · intro typed suggestion found
    obtain ⟨split, pending, alike⟩ := overlap?_eq_begun_iff.mp found
    exact ⟨pending, cutAt_of_splitLead? (splitLead?_eq_some_iff.mpr ⟨split, alike⟩)⟩

end Typeahead.Text
