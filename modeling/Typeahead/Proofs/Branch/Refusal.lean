import Typeahead.Proofs.Branch.Overlay

namespace Typeahead

/-! When a part is refused.

A part is refused because it is empty, because it was typed behind a suggestion, or
because it does not lie over what is left of the input; the first of these reasons is the
answer.  Every other part is added.  A call that refuses a part leaves the branch as it found
it. -/

variable {H : Host}

/-- Only a placeholder may have no content. -/
def Part.IsEmpty (part : Part) : Prop := part.content = [] ∧ part.kind ≠ .placeholder

namespace Branch

/-- Whether the part has to lie over the input: white space only does where some is left. -/
def covers (branch : Branch H) (part : Part) : Bool :=
  part.kind == .input || part.kind == .whitespace && branch.hasInput

/-- A typed part cannot follow a suggestion. -/
def IsLate (branch : Branch H) (part : Part) : Prop :=
  part.kind = .input ∧ branch.hasKind .suggestion = true

/-- The part does not spell the input that it has to lie over, or it was not typed and there
is input left in front of it. -/
def Strays (branch : Branch H) (part : Part) : Prop :=
  branch.covers part = true ∧ ¬ Text.BeginsWith branch.input part.content ∨
    (part.kind = .suggestion ∨ part.kind = .placeholder) ∧ branch.input ≠ []

/-- The stretch of the input that the part lies over, as the input spells it. -/
def stretch (branch : Branch H) (part : Part) : Text :=
  branch.input.take (if branch.covers part then part.content.length else 0)

/-- The part comes last, and the input loses as many characters as the part covers.  The
position moves over their bytes, which the part need not have as many of. -/
structure Appends (branch : Branch H) (part : Part) (next : Branch H) : Prop where
  appended : next = { branch with
    parts := branch.parts ++ [part], consumed := next.consumed, pastEnd := next.pastEnd }
  input : next.input =
    branch.input.drop (if branch.covers part then part.content.length else 0)
  consumed : next.consumed = branch.consumed + (branch.stretch part).byteSize

variable {branch next : Branch H} {part : Part} {cause : Error}

theorem consume_eq_error {content : Text} (unlike : ¬ Text.BeginsWith branch.input content) :
    Call.consume content branch = .error (branch.diverges content) branch := by
  apply Call.consume_of_none
  by_contra found
  obtain ⟨⟨spelled, rest⟩, split⟩ := Option.ne_none_iff_exists'.mp found
  obtain ⟨whole, alike⟩ := Text.splitLead?_eq_some_iff.mp split
  exact unlike ⟨spelled, rest, whole, alike⟩

/-! ### The reasons to refuse a part -/

theorem call_of_isEmpty (empty : part.IsEmpty) :
    Call.add part branch = .error (branch.violated .emptyPart) branch :=
  Call.add_of_empty empty.1 empty.2

theorem not_isEmpty_iff : ¬ part.IsEmpty ↔ part.content ≠ [] ∨ part.kind = .placeholder := by
  rw [Part.IsEmpty, not_and_or, not_not]

theorem call_of_isLate (nonempty : ¬ part.IsEmpty) (late : branch.IsLate part) :
    Call.add part branch = .error (branch.violated .inputAfterSuggestion) branch := by
  obtain ⟨kind, suggested⟩ := late
  apply Call.add_of_advance_error (not_isEmpty_iff.mp nonempty)
  rw [kind, Call.advance_input, if_pos suggested]

theorem call_of_strays (nonempty : ¬ part.IsEmpty) (early : ¬ branch.IsLate part)
    (strays : branch.Strays part) :
    Call.add part branch = .error (branch.diverges part.content) branch := by
  apply Call.add_of_advance_error (not_isEmpty_iff.mp nonempty)
  rcases strays with ⟨covered, unlike⟩ | ⟨offered, left⟩
  · have refused := consume_eq_error unlike
    simp only [covers, Bool.or_eq_true, Bool.and_eq_true, beq_iff_eq] at covered
    rcases covered with kind | ⟨kind, left⟩
    · have allowed : ¬ branch.hasKind .suggestion = true := fun suggested =>
        early ⟨kind, suggested⟩
      rw [kind, Call.advance_input, if_neg allowed, refused]
    · rw [kind, Call.advance_whitespace, if_pos left, refused]
  · rw [Call.advance_offered part.content branch offered, if_pos (hasInput_iff.mpr left)]

/-! ### Parts that are added -/

/-- A part that is not refused for one of these reasons is added. -/
theorem exists_call (nonempty : ¬ part.IsEmpty) (early : ¬ branch.IsLate part)
    (straight : ¬ branch.Strays part) : ∃ next, Call.add part branch = .ok () next := by
  simp only [Part.IsEmpty, not_and, not_not] at nonempty
  simp only [Strays, not_or, not_and, not_not] at straight
  obtain ⟨spells, behind⟩ := straight
  have content : part.kind ≠ .placeholder → part.content ≠ [] :=
    fun kind empty => kind (nonempty empty)
  cases kind : part.kind with
  | input =>
      have allowed : branch.hasKind .suggestion = false := by
        by_contra suggested
        exact early ⟨kind, by simpa using suggested⟩
      obtain ⟨spelled, rest, split, alike⟩ := spells (by simp [covers, kind])
      exact ⟨_, call_eq_ok_iff.mpr
        (.covering (content (by simp [kind])) (.inl ⟨kind, allowed⟩) split alike)⟩
  | whitespace =>
      by_cases left : branch.hasInput = true
      · obtain ⟨spelled, rest, split, alike⟩ := spells (by simp [covers, kind, left])
        exact ⟨_, call_eq_ok_iff.mpr
          (.covering (content (by simp [kind])) (.inr kind) split alike)⟩
      · have used := hasInput_eq_false_iff.mp (by simpa using left)
        exact ⟨_, call_eq_ok_iff.mpr (.behind (.inl (content (by simp [kind]))) (.inl kind) used)⟩
  | suggestion =>
      exact ⟨_, call_eq_ok_iff.mpr
        (.behind (.inl (content (by simp [kind]))) (.inr (.inl kind)) (behind (.inl kind)))⟩
  | placeholder =>
      exact ⟨_, call_eq_ok_iff.mpr (.behind (.inr kind) (.inr (.inr kind)) (behind (.inr kind)))⟩
  | fuzzy => exact ⟨_, call_eq_ok_iff.mpr (.beside (content (by simp [kind])) kind)⟩

theorem appends_of_call (added : Call.add part branch = .ok () next) :
    branch.Appends part next := by
  have appended : next = { branch with
      parts := branch.parts ++ [part], consumed := next.consumed, pastEnd := next.pastEnd } := by
    obtain ⟨consumed, pastEnd, same⟩ := add_eq_ok (Call.extend_of_ok added)
    rw [same]
  cases call_eq_ok_iff.mp added with
  | beside nonempty kind =>
      have uncovered : ¬ branch.covers part = true := by simp [covers, kind]
      refine ⟨appended, ?_, ?_⟩
      · rw [withPart_input, if_neg uncovered, List.drop_zero]
      · rw [stretch, if_neg uncovered, List.take_zero]
        rfl
  | @covering spelled rest nonempty kind split alike =>
      have nonempty' : spelled ≠ [] := fun empty => nonempty (alike.eq_nil_iff.mp empty)
      have left : branch.hasInput = true := hasInput_iff.mpr (by simp [split, nonempty'])
      have covered : branch.covers part = true := by
        rcases kind with ⟨kind, _⟩ | kind <;> simp [covers, kind, left]
      refine ⟨appended, ?_, ?_⟩
      · rw [withPart_input, (consumed_input nonempty' split).1, if_pos covered, split,
          ← alike.length_eq, List.drop_left]
      · rw [stretch, if_pos covered, split, ← alike.length_eq, List.take_left]
        rfl
  | behind nonempty kind used =>
      refine ⟨appended, ?_, ?_⟩
      · rw [withPart_input, leaveInput_input part.content used, used, List.drop_nil]
      · obtain ⟨pastEnd, same⟩ := branch.leaveInput_eq part.content
        rw [stretch, used, List.take_nil, same]
        rfl

/-- The answer to every part: the first reason there is to refuse it, or none and the branch
with the part at its end.  A part that is refused leaves the branch as it was. -/
theorem add_answers (branch : Branch H) (part : Part) :
    ((∃ after, Call.add part branch = .error (branch.violated .emptyPart) after) ↔
        part.IsEmpty) ∧
      ((∃ after, Call.add part branch = .error (branch.violated .inputAfterSuggestion) after) ↔
        ¬ part.IsEmpty ∧ branch.IsLate part) ∧
      ((∃ after, Call.add part branch =
          .error (branch.violated (.diverges branch.input part.content)) after) ↔
        ¬ part.IsEmpty ∧ ¬ branch.IsLate part ∧ branch.Strays part) ∧
      ((∃ next, Call.add part branch = .ok () next) ↔
        ¬ part.IsEmpty ∧ ¬ branch.IsLate part ∧ ¬ branch.Strays part) ∧
      (∀ cause after, Call.add part branch = .error cause after → after = branch) ∧
      ∀ next, Call.add part branch = .ok () next → branch.Appends part next := by
  have failed := Call.atomic_add part branch
  have succeeded : ∀ next, Call.add part branch = .ok () next → branch.Appends part next :=
    fun _ => appends_of_call
  -- the answers exclude each other, as do the reasons
  by_cases empty : part.IsEmpty
  · have refused : Call.add part branch = .error (branch.violated .emptyPart) branch :=
      call_of_isEmpty empty
    refine ⟨?_, ?_, ?_, ?_, failed, succeeded⟩ <;> simp [refused, empty, violated]
  · by_cases late : branch.IsLate part
    · have refused := call_of_isLate empty late
      refine ⟨?_, ?_, ?_, ?_, failed, succeeded⟩ <;> simp [refused, empty, late, violated]
    · by_cases strays : branch.Strays part
      · have refused := call_of_strays empty late strays
        refine ⟨?_, ?_, ?_, ?_, failed, succeeded⟩ <;>
          simp [refused, empty, late, strays, violated, diverges]
      · obtain ⟨next, added⟩ := exists_call empty late strays
        refine ⟨?_, ?_, ?_, ?_, failed, succeeded⟩ <;> simp [added, empty, late, strays]

/-- The Kelvin sign in the input has three bytes, and the letter that is added for it has one. -/
example (holder : Holder H) (data : H.Data) :
    ((Call.add { content := ['k'], kind := .input }).leave
      { given := ['\u212A', 'b'], holder, data }).consumed = 3 := by
  rfl

end Branch

end Typeahead
