import Typeahead.Branch.Basic

namespace Typeahead.Branch

/-! What a call on a branch answers, and what it leaves as it was. -/

variable {H : Host} {branch moved next after : Branch H} {content : Text} {kind : PartKind}
  {part : Part} {factor : Float} {cause : Error}

namespace Call

variable {call : Call H}

theorem extend_of_ok (made : call branch = .ok () next) : call.extend branch = .ok next := by
  rw [extend, made]

theorem extend_of_error (failed : call branch = .error cause after) :
    call.extend branch = .error cause := by
  rw [extend, failed]

theorem leave_of_ok (made : call branch = .ok () next) : call.leave branch = next := by
  rw [leave, made]

theorem leave_of_error (failed : call branch = .error cause after) :
    call.leave branch = after := by
  rw [leave, failed]

theorem extend_eq_ok_iff : call.extend branch = .ok next ↔ call branch = .ok () next := by
  cases called : call branch with
  | ok _ moved => simp [extend_of_ok called]
  | error cause after => simp [extend_of_error called]

theorem extend_bind (first : Call H) (further : Unit → Call H) (branch : Branch H) :
    extend (first >>= further) branch = first.extend branch >>= extend (further ()) := by
  simp only [extend, bind, EStateM.bind, Except.bind]
  cases first branch <;> rfl

/-! ### Call by call -/

theorem addScore_apply (factor : Float) (branch : Branch H) : addScore factor branch =
    if Score.inRange factor then .ok () { branch with factors := branch.factors ++ [factor] }
    else .error (branch.violated (.scoreOutOfRange factor)) branch := by
  change (if Score.inRange factor then _ else _ : Call H) branch = _
  split <;> rfl

theorem consume_apply (content : Text) (branch : Branch H) : consume content branch =
    (match Text.splitLead? false branch.input content with
    | some (spelled, _) => set { branch with consumed := branch.consumed + spelled.byteSize }
    | none => throw (branch.diverges content) : Call H) branch := rfl

theorem consume_of_some {spelled rest : Text}
    (found : Text.splitLead? false branch.input content = some (spelled, rest)) :
    consume content branch =
      .ok () { branch with consumed := branch.consumed + spelled.byteSize } := by
  rw [consume_apply, found]
  rfl

theorem consume_of_none (missing : Text.splitLead? false branch.input content = none) :
    consume content branch = .error (branch.diverges content) branch := by
  rw [consume_apply, missing]
  rfl

theorem advance_input (content : Text) (branch : Branch H) : advance content .input branch =
    if branch.hasKind .suggestion then .error (branch.violated .inputAfterSuggestion) branch
    else consume content branch := by
  change (if branch.hasKind .suggestion then _ else _ : Call H) branch = _
  split <;> rfl

theorem advance_whitespace (content : Text) (branch : Branch H) :
    advance content .whitespace branch =
      if branch.hasInput then consume content branch
      else .ok () { branch with pastEnd := true } := by
  change (if branch.hasInput then _ else _ : Call H) branch = _
  split <;> rfl

theorem advance_offered (content : Text) (branch : Branch H)
    (offered : kind = .suggestion ∨ kind = .placeholder) : advance content kind branch =
      if branch.hasInput then .error (branch.diverges content) branch
      else .ok () (branch.leaveInput content) := by
  rcases offered with rfl | rfl
  all_goals
    change (if branch.hasInput then _ else _ : Call H) branch = _
    split <;> rfl

theorem add_apply (part : Part) (branch : Branch H) : add part branch =
    if part.content.isEmpty && part.kind != .placeholder then
      .error (branch.violated .emptyPart) branch
    else (advance part.content part.kind >>= fun _ => modify (·.withPart part)) branch := by
  change (if _ then _ else _ : Call H) branch = _
  split <;> rfl

theorem add_of_empty (empty : part.content = []) (kind : part.kind ≠ .placeholder) :
    add part branch = .error (branch.violated .emptyPart) branch := by
  rw [add_apply, if_pos (by simp [empty, kind])]

theorem add_of_nonempty (nonempty : part.content ≠ [] ∨ part.kind = .placeholder) :
    add part branch =
      (advance part.content part.kind >>= fun _ => modify (·.withPart part)) branch := by
  rw [add_apply, if_neg]
  rcases nonempty with content | kind
  · simp [content]
  · simp [kind]

/-- Once the position has moved, nothing can fail any more. -/
theorem add_of_advance (nonempty : part.content ≠ [] ∨ part.kind = .placeholder)
    (advanced : advance part.content part.kind branch = .ok () moved) :
    add part branch = .ok () (moved.withPart part) := by
  rw [add_of_nonempty nonempty]
  change EStateM.bind _ _ branch = _
  rw [EStateM.bind, advanced]
  rfl

theorem add_of_advance_error (nonempty : part.content ≠ [] ∨ part.kind = .placeholder)
    (failed : advance part.content part.kind branch = .error cause after) :
    add part branch = .error cause after := by
  rw [add_of_nonempty nonempty]
  change EStateM.bind _ _ branch = _
  rw [EStateM.bind, failed]

/-! ### Calls that fail -/

/-- A call that changes nothing where it fails. -/
def Atomic (call : Call H) : Prop :=
  ∀ branch cause after, call branch = .error cause after → after = branch

/-- What holds in front of a call and behind it where it succeeds holds of what it leaves. -/
theorem Atomic.leaves {P : Branch H → Prop} (atomic : call.Atomic) (before : P branch)
    (behind : ∀ next, call.extend branch = .ok next → P next) : P (call.leave branch) := by
  cases called : call branch with
  | ok _ next =>
      rw [leave_of_ok called]
      exact behind next (extend_of_ok called)
  | error cause after =>
      rw [leave_of_error called, atomic branch cause after called]
      exact before

theorem atomic_addScore (factor : Float) : (addScore factor : Call H).Atomic := by
  intro branch cause after failed
  rw [addScore_apply] at failed
  split at failed
  · contradiction
  · cases failed
    rfl

theorem atomic_consume (content : Text) : (consume content : Call H).Atomic := by
  intro branch cause after failed
  cases split : Text.splitLead? false branch.input content with
  | some found =>
      rw [consume_of_some split] at failed
      contradiction
  | none =>
      rw [consume_of_none split] at failed
      cases failed
      rfl

theorem atomic_advance (content : Text) (kind : PartKind) :
    (advance content kind : Call H).Atomic := by
  intro branch cause after failed
  cases kind with
  | input =>
      rw [advance_input] at failed
      split at failed
      · cases failed
        rfl
      · exact atomic_consume content branch cause after failed
  | whitespace =>
      rw [advance_whitespace] at failed
      split at failed
      · exact atomic_consume content branch cause after failed
      · contradiction
  | suggestion | placeholder =>
      rw [advance_offered content branch (by simp)] at failed
      split at failed
      · cases failed
        rfl
      · contradiction
  | fuzzy => contradiction

/-- The part is added last, and the position moves only where nothing can fail any more. -/
theorem atomic_add (part : Part) : (add part : Call H).Atomic := by
  intro branch cause after failed
  by_cases nonempty : part.content ≠ [] ∨ part.kind = .placeholder
  · cases advanced : advance part.content part.kind branch with
    | ok _ moved =>
        rw [add_of_advance nonempty advanced] at failed
        contradiction
    | error cause' after' =>
        rw [add_of_advance_error nonempty advanced] at failed
        cases failed
        exact atomic_advance _ _ _ _ _ advanced
  · rw [not_or, Classical.not_not] at nonempty
    rw [add_of_empty nonempty.1 nonempty.2] at failed
    cases failed
    rfl

end Call

/-! ### What stays as it was -/

/-- Before anything is covered, all of the given input is left. -/
theorem ahead_of_start (uncovered : branch.consumed = 0) : branch.ahead = branch.given := by
  rw [ahead, uncovered, Text.dropBytes?_zero, Option.getD_some]

theorem input_of_start (uncovered : branch.consumed = 0) (present : branch.pastEnd = false) :
    branch.input = branch.given := by
  rw [input, present, if_neg Bool.false_ne_true, ahead_of_start uncovered]

theorem input_fresh (given : Text) (holder : Holder H) (data : H.Data) (name : String) :
    (pushStack { given, holder, data } name).input = given :=
  input_of_start rfl rfl

theorem leaveInput_eq (branch : Branch H) (content : Text) :
    ∃ pastEnd, branch.leaveInput content = { branch with pastEnd } := by
  rw [leaveInput]
  split
  · exact ⟨branch.pastEnd, rfl⟩
  · exact ⟨true, rfl⟩

theorem consume_eq_ok (consumed : Call.consume content branch = .ok () moved) :
    ∃ spelled rest, Text.splitLead? false branch.input content = some (spelled, rest) ∧
      moved = { branch with consumed := branch.consumed + spelled.byteSize } := by
  cases split : Text.splitLead? false branch.input content with
  | none =>
      rw [Call.consume_of_none split] at consumed
      contradiction
  | some found =>
      obtain ⟨spelled, rest⟩ := found
      rw [Call.consume_of_some split] at consumed
      cases consumed
      exact ⟨spelled, rest, rfl, rfl⟩

theorem advance_eq_ok (advanced : Call.advance content kind branch = .ok () moved) :
    ∃ consumed pastEnd, moved = { branch with consumed, pastEnd } := by
  have covered : Call.consume content branch = .ok () moved →
      ∃ consumed pastEnd, moved = { branch with consumed, pastEnd } := by
    intro consumed
    obtain ⟨spelled, _, _, same⟩ := consume_eq_ok consumed
    exact ⟨branch.consumed + spelled.byteSize, branch.pastEnd, same⟩
  cases kind with
  | input =>
      rw [Call.advance_input] at advanced
      split at advanced
      · contradiction
      · exact covered advanced
  | whitespace =>
      rw [Call.advance_whitespace] at advanced
      split at advanced
      · exact covered advanced
      · cases advanced
        exact ⟨branch.consumed, true, rfl⟩
  | suggestion | placeholder =>
      rw [Call.advance_offered content branch (by simp)] at advanced
      split at advanced
      · contradiction
      · cases advanced
        obtain ⟨pastEnd, left⟩ := branch.leaveInput_eq content
        exact ⟨branch.consumed, pastEnd, left⟩
  | fuzzy =>
      cases advanced
      exact ⟨branch.consumed, branch.pastEnd, rfl⟩

/-- Only the position moves, and the part comes last. -/
theorem add_eq_ok (added : branch.add part = .ok next) :
    ∃ consumed pastEnd,
      next = { branch with consumed, pastEnd, parts := branch.parts ++ [part] } := by
  have called := Call.extend_eq_ok_iff.mp added
  by_cases nonempty : part.content ≠ [] ∨ part.kind = .placeholder
  · cases advanced : Call.advance part.content part.kind branch with
    | error cause after =>
        rw [Call.add_of_advance_error nonempty advanced] at called
        contradiction
    | ok _ moved =>
        rw [Call.add_of_advance nonempty advanced] at called
        cases called
        obtain ⟨consumed, pastEnd, rfl⟩ := advance_eq_ok advanced
        exact ⟨consumed, pastEnd, rfl⟩
  · rw [not_or, Classical.not_not] at nonempty
    rw [Call.add_of_empty nonempty.1 nonempty.2] at called
    contradiction

/-- A part that may be added is added where the position could be moved. -/
theorem add_eq_bind (branch : Branch H)
    (nonempty : part.content ≠ [] ∨ part.kind = .placeholder) : branch.add part =
      (Call.advance part.content part.kind).extend branch >>=
        fun moved => .ok (moved.withPart part) := by
  rw [add, Call.extend, Call.add_of_nonempty nonempty]
  exact Call.extend_bind _ _ branch

theorem addScore_eq (branch : Branch H) (factor : Float) : branch.addScore factor =
    if Score.inRange factor then .ok { branch with factors := branch.factors ++ [factor] }
    else .error (branch.violated (.scoreOutOfRange factor)) := by
  cases inside : Score.inRange factor <;>
    simp [addScore, Call.extend, Call.addScore_apply, inside]

theorem addScore_eq_ok (added : branch.addScore factor = .ok next) :
    next = { branch with factors := branch.factors ++ [factor] } := by
  rw [addScore_eq] at added
  split at added
  · cases added
    rfl
  · contradiction

end Typeahead.Branch
