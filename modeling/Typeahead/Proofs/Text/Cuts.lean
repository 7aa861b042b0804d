import Typeahead.Text.Bytes

namespace Typeahead.Text

/-! Cuts between bytes.

A text that is cut at an offset between characters falls into two texts, and it can be cut at
the sizes of its leads only. -/

/-- The characters of a text, each with the offset of its first byte. -/
def byteOffsets (offset : Nat) : Text → List (Nat × Char)
  | [] => []
  | letter :: text => (offset, letter) :: byteOffsets (offset + letter.utf8Size) text

/-- The offset is one between characters, with the bytes of one text in front of it and those
of another one behind it. -/
structure CutAt (text : Text) (offset : Nat) (front behind : Text) : Prop where
  boundary : String.Pos.Raw.IsValid (String.ofList text) ⟨offset⟩
  front : (String.ofList text).toByteArray.extract 0 offset = (String.ofList front).toByteArray
  behind : (String.ofList text).toByteArray.extract offset text.byteSize =
    (String.ofList behind).toByteArray

variable {text front behind : Text} {offset : Nat}

theorem cutAt_append (front behind : Text) :
    CutAt (front ++ behind) front.byteSize front behind where
  boundary := String.Pos.Raw.isValid_iff_exists_append.mpr ⟨_, _, String.ofList_append, rfl⟩
  front := by
    rw [String.ofList_append, String.toByteArray_append]
    exact ByteArray.extract_append_eq_left rfl
  behind := by
    rw [byteSize_append, String.ofList_append, String.toByteArray_append]
    exact ByteArray.extract_append_eq_right rfl rfl

/-- The bytes on both sides tell the texts on both sides. -/
theorem cutAt_iff : CutAt text offset front behind ↔
    text = front ++ behind ∧ offset = front.byteSize := by
  constructor
  · intro cut
    obtain ⟨first, second, whole, place⟩ := String.Pos.Raw.isValid_iff_exists_append.mp cut.boundary
    have size : offset = first.utf8ByteSize := congrArg String.Pos.Raw.byteIdx place
    have first_eq : first = String.ofList front := by
      have bytes := cut.front
      rw [whole, String.toByteArray_append, ByteArray.extract_append_eq_left size] at bytes
      exact String.toByteArray_inj.mp bytes
    have second_eq : second = String.ofList behind := by
      have bytes := cut.behind
      have total : text.byteSize = first.toByteArray.size + second.toByteArray.size := by
        rw [byteSize, whole, String.utf8ByteSize_append]
        rfl
      rw [whole, String.toByteArray_append, ByteArray.extract_append_eq_right size total] at bytes
      exact String.toByteArray_inj.mp bytes
    subst first_eq second_eq
    rw [← String.ofList_append] at whole
    exact ⟨String.ofList_injective whole, size⟩
  · intro cut
    obtain ⟨rfl, rfl⟩ := cut
    exact cutAt_append front behind

theorem CutAt.within (cut : CutAt text offset front behind) : offset ≤ text.byteSize := by
  obtain ⟨rfl, rfl⟩ := cutAt_iff.mp cut
  rw [byteSize_append]
  exact Nat.le_add_right _ _

/-- What follows an offset is found only where the text can be cut. -/
theorem dropBytes?_eq_some_iff_cutAt :
    dropBytes? text offset = some behind ↔ ∃ front, CutAt text offset front behind := by
  simp only [dropBytes?_eq_some_iff, cutAt_iff]

end Typeahead.Text
