import Typeahead.Branch.Lemmas
import Typeahead.Proofs.Run.Gives
import Typeahead.Proofs.Text.Alike

namespace Typeahead

/-! What adding a part does to a branch, in the three ways in which it can succeed. -/

variable {H : Host}

namespace Part

@[simp] theorem contents_nil : contents [] = [] := rfl

@[simp] theorem contents_append (first second : List Part) :
    contents (first ++ second) = contents first ++ contents second :=
  List.flatMap_append

@[simp] theorem contents_cons (part : Part) (parts : List Part) :
    contents (part :: parts) = part.content ++ contents parts := rfl

@[simp] theorem spelled_nil : spelled [] = [] := rfl

@[simp] theorem spelled_append (first second : List Part) :
    spelled (first ++ second) = spelled first ++ spelled second := by
  simp [spelled]

theorem spelled_singleton {part : Part} (isSpelled : part.isSpelled = true) :
    spelled [part] = part.content := by
  simp [spelled, isSpelled]

theorem spelled_eq_nil_iff {parts : List Part} :
    spelled parts = [] ↔ ∀ part ∈ parts, part.isSpelled = true → part.content = [] := by
  simp [spelled, contents]

end Part

namespace Branch

variable {branch next : Branch H} {part : Part}

@[simp] theorem withPart_parts : (branch.withPart part).parts = branch.parts ++ [part] := rfl

@[simp] theorem withPart_input : (branch.withPart part).input = branch.input := rfl

/-- What is covered is taken off what is ahead, by as many bytes as it has there. -/
theorem consumed_ahead {spelled rest : Text} (split : branch.input = spelled ++ rest) :
    ahead { branch with consumed := branch.consumed + spelled.byteSize } =
      branch.ahead.drop spelled.length := by
  have none_covered : spelled = [] →
      ahead { branch with consumed := branch.consumed + spelled.byteSize } =
        branch.ahead.drop spelled.length := by
    intro silent
    subst silent
    rfl
  cases past : branch.pastEnd with
  | true =>
      simp only [input, past, if_true] at split
      exact none_covered (List.append_eq_nil_iff.mp split.symm).1
  | false =>
      simp only [input, past, Bool.false_eq_true, if_false] at split
      cases cut : branch.given.dropBytes? branch.consumed with
      | none =>
          simp only [ahead, cut, Option.getD_none] at split
          exact none_covered (List.append_eq_nil_iff.mp split.symm).1
      | some text =>
          simp only [ahead, cut, Option.getD_some] at split
          subst split
          simp only [ahead, cut, Text.dropBytes?_add cut, Option.getD_some, List.drop_left]

theorem root_results {given : Text} {holder : Holder H} {root : Branch H}
    (rooted : (Branch.root given holder).Results root) :
    ∃ data, root = { given, holder, data } := by
  obtain ⟨world, rfl⟩ := rooted
  exact ⟨_, rfl⟩

theorem root_begins {given : Text} {holder : Holder H} {root : Branch H}
    (rooted : (Branch.root given holder).Results root) :
    ∃ data, holder.init.Results data ∧ root = { given, holder, data } := by
  obtain ⟨data, answered, made⟩ := Action.results_bind rooted
  exact ⟨data, answered, Action.results_pure made⟩

theorem fork_copies {copy : Branch H} (copied : branch.fork.Results copy) :
    ∃ data, (branch.holder.copy branch.data).Results data ∧
      copy = { branch with data, lineage := branch.lineage + 1 } := by
  obtain ⟨data, answered, made⟩ := Action.results_bind copied
  exact ⟨data, answered, Action.results_pure made⟩

theorem fork_results {copy : Branch H} (copied : branch.fork.Results copy) :
    ∃ data, copy = { branch with data, lineage := branch.lineage + 1 } := by
  obtain ⟨world, rfl⟩ := copied
  exact ⟨_, rfl⟩

theorem fork_input {copy : Branch H} (copied : branch.fork.Results copy) :
    copy.input = branch.input := by
  obtain ⟨data, rfl⟩ := fork_results copied
  rfl

/-- The ways in which a part is added: beside the input, over a stretch of it that
the content spells, or behind it once it is used up. -/
inductive Added (branch : Branch H) (part : Part) : Branch H → Prop
  | beside (nonempty : part.content ≠ []) (kind : part.kind = .fuzzy) :
      Added branch part (branch.withPart part)
  | covering {spelled rest : Text} (nonempty : part.content ≠ [])
      (kind : part.kind = .input ∧ branch.hasKind .suggestion = false ∨ part.kind = .whitespace)
      (split : branch.input = spelled ++ rest) (alike : Text.Alike false spelled part.content) :
      Added branch part
        (withPart { branch with consumed := branch.consumed + spelled.byteSize } part)
  | behind (nonempty : part.content ≠ [] ∨ part.kind = .placeholder)
      (kind : part.kind = .whitespace ∨ part.kind = .suggestion ∨ part.kind = .placeholder)
      (used : branch.input = []) :
      Added branch part ((branch.leaveInput part.content).withPart part)

theorem hasInput_eq_false_iff : branch.hasInput = false ↔ branch.input = [] := by
  simp [hasInput]

theorem hasInput_iff : branch.hasInput = true ↔ branch.input ≠ [] := by
  simp [hasInput]

theorem leaveInput_of_ne_nil {content : Text} (nonempty : content ≠ []) :
    branch.leaveInput content = { branch with pastEnd := true } := by
  rw [leaveInput, if_neg (by simpa using nonempty)]

theorem consume_eq_ok_iff {content : Text} :
    Call.consume content branch = .ok () next ↔
      ∃ spelled rest, branch.input = spelled ++ rest ∧ Text.Alike false spelled content ∧
        next = { branch with consumed := branch.consumed + spelled.byteSize } := by
  constructor
  · intro consumed
    obtain ⟨spelled, rest, split, same⟩ := consume_eq_ok consumed
    obtain ⟨whole, alike⟩ := Text.splitLead?_eq_some_iff.mp split
    exact ⟨spelled, rest, whole, alike, same⟩
  · intro starts
    obtain ⟨spelled, rest, whole, alike, rfl⟩ := starts
    exact Call.consume_of_some (Text.splitLead?_eq_some_iff.mpr ⟨whole, alike⟩)

private theorem call_eq_ok_advance :
    Call.add part branch = .ok () next ↔
      (part.content ≠ [] ∨ part.kind = .placeholder) ∧
        ∃ moved, Call.advance part.content part.kind branch = .ok () moved ∧
          next = moved.withPart part := by
  by_cases nonempty : part.content ≠ [] ∨ part.kind = .placeholder
  · cases advanced : Call.advance part.content part.kind branch with
    | error cause after => simp [Call.add_of_advance_error nonempty advanced]
    | ok _ moved =>
        rw [Call.add_of_advance nonempty advanced]
        constructor
        · intro made
          cases made
          exact ⟨nonempty, moved, rfl, rfl⟩
        · intro made
          obtain ⟨_, _, same, rfl⟩ := made
          cases same
          rfl
  · have refused := nonempty
    rw [not_or, not_not] at refused
    rw [Call.add_of_empty refused.1 refused.2]
    constructor
    · intro made
      contradiction
    · intro made
      exact absurd made.1 nonempty

private theorem added_of_advance {moved : Branch H}
    (nonempty : part.content ≠ [] ∨ part.kind = .placeholder)
    (advanced : Call.advance part.content part.kind branch = .ok () moved) :
    Added branch part (moved.withPart part) := by
  cases kind : part.kind with
  | input =>
      have nonempty' : part.content ≠ [] := by simpa [kind] using nonempty
      rw [kind, Call.advance_input] at advanced
      split at advanced
      · contradiction
      · rename_i allowed
        obtain ⟨spelled, rest, split, alike, rfl⟩ := consume_eq_ok_iff.mp advanced
        exact .covering nonempty' (.inl ⟨kind, by simpa using allowed⟩) split alike
  | whitespace =>
      have nonempty' : part.content ≠ [] := by simpa [kind] using nonempty
      rw [kind, Call.advance_whitespace] at advanced
      split at advanced
      · obtain ⟨spelled, rest, split, alike, rfl⟩ := consume_eq_ok_iff.mp advanced
        exact .covering nonempty' (.inr kind) split alike
      · rename_i used
        cases advanced
        rw [← leaveInput_of_ne_nil nonempty']
        exact .behind nonempty (.inl kind) (hasInput_eq_false_iff.mp (by simpa using used))
  | suggestion | placeholder =>
      rw [kind, Call.advance_offered part.content branch (by simp)] at advanced
      split at advanced
      · contradiction
      · rename_i used
        cases advanced
        exact .behind nonempty (by simp [kind]) (hasInput_eq_false_iff.mp (by simpa using used))
  | fuzzy =>
      rw [kind] at advanced
      cases advanced
      exact .beside (by simpa [kind] using nonempty) kind

/-- Adding succeeds in these three ways and in no other. -/
theorem call_eq_ok_iff : Call.add part branch = .ok () next ↔ Added branch part next := by
  rw [call_eq_ok_advance]
  constructor
  · intro made
    obtain ⟨nonempty, moved, advanced, rfl⟩ := made
    exact added_of_advance nonempty advanced
  · intro added
    cases added with
    | beside nonempty kind => exact ⟨.inl nonempty, branch, by rw [kind]; rfl, rfl⟩
    | @covering spelled rest nonempty kind split alike =>
        have consumed := consume_eq_ok_iff.mpr ⟨spelled, rest, split, alike, rfl⟩
        refine ⟨.inl nonempty, _, ?_, rfl⟩
        rcases kind with ⟨kind, allowed⟩ | kind
        · simpa [kind, Call.advance_input, allowed] using consumed
        · have left : branch.hasInput = true := by
            rw [hasInput_iff, split]
            intro empty
            exact nonempty (alike.eq_nil_iff.mp (List.append_eq_nil_iff.mp empty).1)
          simpa [kind, Call.advance_whitespace, left] using consumed
    | behind nonempty kind used =>
        have empty := hasInput_eq_false_iff.mpr used
        refine ⟨nonempty, _, ?_, rfl⟩
        rcases kind with kind | offered
        · have nonempty' : part.content ≠ [] := by simpa [kind] using nonempty
          simp [kind, Call.advance_whitespace, empty, leaveInput_of_ne_nil nonempty']
        · simp [Call.advance_offered part.content branch offered, empty]

theorem add_eq_ok_iff : branch.add part = .ok next ↔ Added branch part next :=
  Call.extend_eq_ok_iff.trans call_eq_ok_iff

end Branch

end Typeahead
