import Typeahead.Text.Basic

namespace Typeahead.Text

/-! Offsets into a text, counted in the bytes of UTF-8.

A text can be cut at an offset only where a character begins or where the text ends. -/

/-- The size of a text in UTF-8. -/
def byteSize (text : Text) : Nat := (String.ofList text).utf8ByteSize

/-- What follows an offset; none where it falls inside a character or behind the end. -/
def dropBytes? : Text → Nat → Option Text
  | text, 0 => some text
  | [], _ + 1 => none
  | letter :: text, offset + 1 =>
      if letter.utf8Size ≤ offset + 1 then dropBytes? text (offset + 1 - letter.utf8Size) else none

@[simp] theorem byteSize_nil : byteSize [] = 0 := rfl

@[simp] theorem byteSize_append (front behind : Text) :
    byteSize (front ++ behind) = front.byteSize + behind.byteSize := by
  rw [byteSize, String.ofList_append, String.utf8ByteSize_append]
  rfl

theorem byteSize_cons (letter : Char) (text : Text) :
    byteSize (letter :: text) = letter.utf8Size + text.byteSize := by
  rw [← List.singleton_append, byteSize_append]
  simp [byteSize]

@[simp] theorem dropBytes?_zero (text : Text) : dropBytes? text 0 = some text := by
  cases text <;> rfl

theorem dropBytes?_cons (letter : Char) (text : Text) (offset : Nat) :
    dropBytes? (letter :: text) (letter.utf8Size + offset) = dropBytes? text offset := by
  obtain ⟨size, positive⟩ := Nat.exists_eq_add_one.mpr letter.utf8Size_pos
  have shifted : letter.utf8Size + offset = size + offset + 1 := by omega
  rw [shifted, dropBytes?, if_pos (by omega), ← shifted, Nat.add_sub_cancel_left]

theorem dropBytes?_append (front behind : Text) (offset : Nat) :
    dropBytes? (front ++ behind) (front.byteSize + offset) = dropBytes? behind offset := by
  induction front with
  | nil => rw [List.nil_append, byteSize_nil, Nat.zero_add]
  | cons letter front ih =>
      rw [List.cons_append, byteSize_cons, Nat.add_assoc, dropBytes?_cons, ih]

theorem dropBytes?_byteSize (front behind : Text) :
    dropBytes? (front ++ behind) front.byteSize = some behind := by
  have whole := dropBytes?_append front behind 0
  rwa [Nat.add_zero, dropBytes?_zero] at whole

/-- An offset is the size of what is in front of it. -/
theorem dropBytes?_eq_some_iff {text rest : Text} {offset : Nat} :
    dropBytes? text offset = some rest ↔
      ∃ front, text = front ++ rest ∧ offset = front.byteSize := by
  constructor
  · intro cut
    induction text generalizing offset with
    | nil =>
        cases offset with
        | zero => exact ⟨[], Option.some.inj cut, rfl⟩
        | succ offset => contradiction
    | cons letter text ih =>
        cases offset with
        | zero => exact ⟨[], Option.some.inj cut, rfl⟩
        | succ offset =>
            rw [dropBytes?] at cut
            split at cut
            · obtain ⟨front, rfl, size⟩ := ih cut
              exact ⟨letter :: front, rfl, by rw [byteSize_cons]; omega⟩
            · contradiction
  · intro cut
    obtain ⟨front, rfl, rfl⟩ := cut
    exact dropBytes?_byteSize front rest

/-- The offset moves on over the bytes of what stands there. -/
theorem dropBytes?_add {text front rest : Text} {offset : Nat}
    (cut : dropBytes? text offset = some (front ++ rest)) :
    dropBytes? text (offset + front.byteSize) = some rest := by
  obtain ⟨before, rfl, rfl⟩ := dropBytes?_eq_some_iff.mp cut
  exact dropBytes?_eq_some_iff.mpr ⟨before ++ front, by simp, by simp⟩

end Typeahead.Text
