import Mathlib.Data.List.Forall2
import Typeahead.Text.Overlap

namespace Typeahead.Text

/-! Texts that agree character by character.

The comparisons of typed text with fixed text are searches.  Here each of them is
said without the search: a split exists exactly when a lead of the text is alike,
and the two kinds of overlap tell which of two texts is the longer one. -/

/-- Equal lengths, and characters that agree at every place. -/
def Alike (caseSensitive : Bool) (left right : Text) : Prop :=
  List.Forall₂ (fun letter other => agree caseSensitive letter other = true) left right

namespace Alike

variable {caseSensitive : Bool} {left middle right lead rest : Text}

@[simp] theorem nil : Alike caseSensitive [] [] := List.Forall₂.nil

theorem refl (text : Text) : Alike caseSensitive text text :=
  List.forall₂_same.mpr fun letter _ => agree_refl caseSensitive letter

theorem symm (alike : Alike caseSensitive left right) : Alike caseSensitive right left := by
  refine List.Forall₂.flip (alike.imp ?_)
  intro letter other same
  exact (agree_comm caseSensitive other letter).trans same

theorem trans (first : Alike caseSensitive left middle)
    (second : Alike caseSensitive middle right) : Alike caseSensitive left right := by
  unfold Alike at first second
  induction first generalizing right with
  | nil =>
      cases second
      exact nil
  | cons same _ ih =>
      cases second with
      | cons same' others => exact List.Forall₂.cons (agree_trans same same') (ih others)

theorem length_eq (alike : Alike caseSensitive left right) : left.length = right.length :=
  List.Forall₂.length_eq alike

theorem insensitive (alike : Alike caseSensitive left right) : Alike false left right :=
  alike.imp fun _ _ same => agree_insensitive_of_agree same

theorem append (first : Alike caseSensitive left right)
    (second : Alike caseSensitive lead rest) : Alike caseSensitive (left ++ lead) (right ++ rest) :=
  List.rel_append first second

theorem eq_nil_iff (alike : Alike caseSensitive left right) : left = [] ↔ right = [] := by
  rw [← List.length_eq_zero_iff, alike.length_eq, List.length_eq_zero_iff]

theorem cut (alike : Alike caseSensitive left (lead ++ rest)) :
    Alike caseSensitive (left.take lead.length) lead ∧
      Alike caseSensitive (left.drop lead.length) rest :=
  ⟨List.forall₂_take_append left lead rest alike, List.forall₂_drop_append left lead rest alike⟩

/-- Texts of characters without case that are alike are equal. -/
theorem eq_of_lower (alike : Alike false left right)
    (settled : ∀ letter ∈ left, lower letter = [letter])
    (settled' : ∀ letter ∈ right, lower letter = [letter]) : left = right := by
  rw [Alike] at alike
  induction alike with
  | nil => rfl
  | @cons letter other left right same _ ih =>
      have folded := (agree_insensitive_iff letter other).mp same
      rw [settled letter List.mem_cons_self, settled' other List.mem_cons_self] at folded
      rw [List.singleton_inj.mp folded,
        ih (fun letter member => settled letter (List.mem_cons_of_mem _ member))
          (fun letter member => settled' letter (List.mem_cons_of_mem _ member))]

end Alike

variable {caseSensitive : Bool}

theorem splitLead?_of_alike {spelled rest lead : Text}
    (alike : Alike caseSensitive spelled lead) :
    splitLead? caseSensitive (spelled ++ rest) lead = some (spelled, rest) := by
  rw [Alike] at alike
  induction alike with
  | nil => exact splitLead?_nil caseSensitive rest
  | cons same _ ih => simp [splitLead?, same, ih]

theorem alike_of_splitLead? {text lead spelled rest : Text}
    (found : splitLead? caseSensitive text lead = some (spelled, rest)) :
    Alike caseSensitive spelled lead := by
  induction lead generalizing text spelled rest with
  | nil =>
      rw [splitLead?_nil] at found
      cases found
      exact Alike.nil
  | cons expected lead ih =>
      cases text with
      | nil => simp [splitLead?] at found
      | cons letter text =>
          simp only [splitLead?] at found
          split at found
          · rename_i same
            obtain ⟨⟨inner, tail⟩, split, equal⟩ := Option.map_eq_some_iff.mp found
            cases equal
            exact List.Forall₂.cons same (ih split)
          · contradiction

theorem splitLead?_eq_some_iff {text lead spelled rest : Text} :
    splitLead? caseSensitive text lead = some (spelled, rest) ↔
      text = spelled ++ rest ∧ Alike caseSensitive spelled lead := by
  constructor
  · intro found
    exact ⟨(append_of_splitLead? found).1.symm, alike_of_splitLead? found⟩
  · rintro ⟨rfl, alike⟩
    exact splitLead?_of_alike alike

/-- The text begins with the lead, character by character and up to case. -/
def BeginsWith (text lead : Text) : Prop :=
  ∃ spelled rest, text = spelled ++ rest ∧ Alike false spelled lead

theorem beginsWith_iff {text lead : Text} :
    text.BeginsWith lead ↔ (splitLead? false text lead).isSome = true := by
  rw [Option.isSome_iff_exists]
  constructor
  · rintro ⟨spelled, rest, split⟩
    exact ⟨(spelled, rest), splitLead?_eq_some_iff.mpr split⟩
  · rintro ⟨⟨spelled, rest⟩, found⟩
    exact ⟨spelled, rest, splitLead?_eq_some_iff.mp found⟩

instance (text lead : Text) : Decidable (text.BeginsWith lead) :=
  decidable_of_iff _ beginsWith_iff.symm

namespace BeginsWith

variable {text input : Text}

theorem length_le (begins : text.BeginsWith input) : input.length ≤ text.length := by
  obtain ⟨spelled, rest, rfl, alike⟩ := begins
  rw [List.length_append, alike.length_eq]
  omega

theorem alike (begins : text.BeginsWith input) (whole : text.length = input.length) :
    Alike false text input := by
  obtain ⟨spelled, rest, rfl, alike⟩ := begins
  have nothing : rest = [] := by
    rw [List.length_append, alike.length_eq] at whole
    exact List.length_eq_zero_iff.mp (by omega)
  rw [nothing, List.append_nil]
  exact alike

end BeginsWith

theorem overlap?_eq_full_iff {input text matched rest : Text} :
    overlap? caseSensitive input text = some (.full matched rest) ↔
      matched = text ∧ ∃ spelled, input = spelled ++ rest ∧ Alike caseSensitive spelled text := by
  rw [overlap?]
  cases split : splitLead? caseSensitive input text with
  | none =>
      constructor
      · intro found
        obtain ⟨_, _, equal⟩ := Option.map_eq_some_iff.mp found
        contradiction
      · rintro ⟨_, spelled, whole, alike⟩
        rw [splitLead?_eq_some_iff.mpr ⟨whole, alike⟩] at split
        contradiction
  | some found =>
      obtain ⟨spelled, behind⟩ := found
      have whole := splitLead?_eq_some_iff.mp split
      constructor
      · intro found
        cases found
        exact ⟨rfl, spelled, whole⟩
      · rintro ⟨rfl, lead, whole', alike'⟩
        rw [splitLead?_eq_some_iff.mpr ⟨whole', alike'⟩] at split
        cases split
        rfl

theorem overlap?_eq_begun_iff {input text typed suggestion : Text} :
    overlap? caseSensitive input text = some (.begun typed suggestion) ↔
      text = typed ++ suggestion ∧ suggestion ≠ [] ∧ Alike caseSensitive typed input := by
  rw [overlap?]
  cases split : splitLead? caseSensitive input text with
  | none =>
      constructor
      · intro found
        obtain ⟨⟨lead, behind⟩, split', equal⟩ := Option.map_eq_some_iff.mp found
        cases equal
        obtain ⟨whole, alike⟩ := splitLead?_eq_some_iff.mp split'
        refine ⟨whole, ?_, alike⟩
        rintro rfl
        -- without a suggestion the input would have spelled the whole text
        rw [whole, List.append_nil] at split
        rw [splitLead?_eq_some_iff.mpr ⟨(List.append_nil input).symm, alike.symm⟩] at split
        contradiction
      · rintro ⟨whole, _, alike⟩
        simp [splitLead?_eq_some_iff.mpr ⟨whole, alike⟩]
  | some found =>
      obtain ⟨spelled, behind⟩ := found
      constructor
      · intro found
        simp at found
      · rintro ⟨rfl, pending, alike⟩
        obtain ⟨rfl, whole⟩ := splitLead?_eq_some_iff.mp split
        have longer := whole.length_eq
        have shorter := alike.length_eq
        have positive := List.length_pos_iff.mpr pending
        simp only [List.length_append] at longer shorter
        omega

end Typeahead.Text
