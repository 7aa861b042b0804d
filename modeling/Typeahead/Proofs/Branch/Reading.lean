import Typeahead.Proofs.Branch.FixedText

namespace Typeahead

/-! What adding a fixed text makes of a branch.

A text that the input spells is read; one of which the input is a lead, be it an empty
one, is offered. -/

/-- A text as far as it was typed, and the rest of it. -/
def Part.begun (marker : Option Marker) (typed pending : Text) : List Part :=
  (if typed = [] then [] else [{ content := typed, kind := .input, marker }]) ++
    [{ content := pending, kind := .suggestion, marker }]

namespace Part

variable {marker : Option Marker} {typed pending : Text}

theorem mem_begun {part : Part} (member : part ∈ begun marker typed pending) :
    part.kind = .input ∨ part.kind = .suggestion := by
  rcases List.mem_append.mp member with front | last
  · by_cases untyped : typed = []
    · simp [untyped] at front
    · rw [if_neg untyped] at front
      exact .inl (congrArg Part.kind (List.mem_singleton.mp front))
  · exact .inr (congrArg Part.kind (List.mem_singleton.mp last))

/-- What stands in front of the rest of a text. -/
theorem begun_eq (marker : Option Marker) (typed pending : Text) :
    ∃ front, begun marker typed pending =
        front ++ [{ content := pending, kind := .suggestion, marker }] ∧
      spelled front = typed := by
  refine ⟨_, rfl, ?_⟩
  by_cases untyped : typed = []
  · rw [if_pos untyped, untyped, spelled_nil]
  · rw [if_neg untyped, spelled_singleton rfl]

theorem spelled_begun : spelled (begun marker typed pending) = typed ++ pending := by
  obtain ⟨front, parts, spells⟩ := begun_eq marker typed pending
  rw [parts, spelled_append, spells, spelled_singleton rfl]

end Part

namespace Branch

variable {H : Host} {branch : Branch H} {marker : Option Marker}

/-- The branch behind a stretch of its input that spells a text. -/
def read (branch : Branch H) (marker : Option Marker) (spelled text : Text) : Branch H :=
  withPart { branch with consumed := branch.consumed + spelled.byteSize }
    { content := text, kind := .input, marker }

/-- The branch behind its input and behind the rest of a text that the input begins. -/
def offered (branch : Branch H) (marker : Option Marker) (typed pending : Text) : Branch H :=
  { branch with
    parts := branch.parts ++ Part.begun marker typed pending
    consumed := branch.consumed + branch.input.byteSize
    pastEnd := true }

theorem read_hasKind (spelled text : Text) :
    (branch.read marker spelled text).hasKind .suggestion = branch.hasKind .suggestion := by
  rw [read, withPart_hasKind]
  exact Bool.or_false _

theorem offered_hasKind (typed pending : Text) :
    (branch.offered marker typed pending).hasKind .suggestion = true := by
  simp [offered, hasKind, Part.begun]

theorem read_isFinished (spelled text : Text) :
    (branch.read marker spelled text).isFinished = branch.isFinished := by
  rw [read, withPart_isFinished]
  exact Bool.or_false _

theorem offered_isFinished (typed pending : Text) :
    (branch.offered marker typed pending).isFinished = branch.isFinished := by
  have shown : (Part.begun marker typed pending).any (·.kind == .placeholder) = false := by
    rw [List.any_eq_false]
    intro part member
    rcases Part.mem_begun member with kind | kind <;> simp [kind]
  simp [isFinished, hasKind, offered, shown]

theorem addOverlap_full {caseSensitive : Bool} {text matched rest : Text}
    (unsuggested : branch.hasKind .suggestion = false) (nonempty : text ≠ [])
    (found : Text.overlap? caseSensitive branch.input text = some (.full matched rest))
    (marker : Option Marker) :
    ∃ spelled, branch.input = spelled ++ rest ∧ Text.Alike caseSensitive spelled text ∧
      branch.addOverlap marker (.full matched rest) = .ok (branch.read marker spelled text) := by
  obtain ⟨rfl, spelled, split, alike⟩ := Text.overlap?_eq_full_iff.mp found
  exact ⟨spelled, split, alike, add_eq_ok_iff.mpr
    (.covering nonempty (.inl ⟨rfl, unsuggested⟩) split alike.insensitive)⟩

theorem addOverlap_begun {caseSensitive : Bool} {typed pending text : Text}
    (suggested : branch.hasKind .suggestion = true → branch.input = [])
    (found : Text.overlap? caseSensitive branch.input text = some (.begun typed pending))
    (marker : Option Marker) :
    branch.addOverlap marker (.begun typed pending) =
      .ok (branch.offered marker typed pending) := by
  obtain ⟨_, left, alike⟩ := Text.overlap?_eq_begun_iff.mp found
  by_cases untyped : typed = []
  · have added : branch.add { content := pending, kind := .suggestion, marker } = .ok _ :=
      add_behind (.inl left) (by simp) (alike.eq_nil_iff.mp untyped)
    have used := alike.eq_nil_iff.mp untyped
    simp [addOverlap, untyped, added, offered, Part.begun, leaveInput, withPart, left, used, bind,
      Except.bind]
  · have split : branch.input = branch.input ++ [] := (List.append_nil branch.input).symm
    have nonempty : branch.input ≠ [] := fun empty => untyped (alike.eq_nil_iff.mpr empty)
    have unsuggested : branch.hasKind .suggestion = false := by
      by_contra found
      exact nonempty (suggested (by simpa using found))
    have typed_added : branch.add { content := typed, kind := .input, marker } =
        .ok (branch.read marker branch.input typed) :=
      add_eq_ok_iff.mpr
        (.covering untyped (.inl ⟨rfl, unsuggested⟩) split alike.insensitive.symm)
    have used : (branch.read marker branch.input typed).input = [] :=
      (consumed_input nonempty split).1
    have added : (branch.read marker branch.input typed).add
        { content := pending, kind := .suggestion, marker } =
          .ok (branch.offered marker typed pending) := by
      rw [add_behind (.inl left) (by simp) used]
      simp [read, offered, Part.begun, leaveInput, withPart, left, untyped]
    simp [addOverlap, untyped, typed_added, added, bind, Except.bind]

end Branch

end Typeahead
