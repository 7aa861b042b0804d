import Typeahead.Proofs.Branch.Growth
import Typeahead.Proofs.Text.Segments

namespace Typeahead

/-! Fixed text is always added, however much of it was typed, and so is a pattern of
which the input is a subsequence. -/

variable {H : Host}

/-- The input behind the text. -/
def Text.Overlap.rest : Text.Overlap → Text
  | .full _ rest => rest
  | .begun _ _ => []

namespace Branch

variable {branch next : Branch H} {text : Text}

@[simp] theorem withPart_isFinished (branch : Branch H) (part : Part) :
    (branch.withPart part).isFinished = (branch.isFinished || part.kind == .placeholder) := by
  simp [isFinished, hasKind, withPart, Bool.or_assoc]

theorem leaveInput_isFinished (branch : Branch H) (content : Text) :
    (branch.leaveInput content).isFinished = branch.isFinished := by
  obtain ⟨pastEnd, same⟩ := branch.leaveInput_eq content
  rw [same]
  rfl

/-- What adding a fixed text does: its parts spell the text, and the input behind
the overlap is left. -/
structure Spells (branch : Branch H) (text rest : Text) (next : Branch H) : Prop where
  grown : branch.Grown next
  unfinished : next.isFinished = false
  input : next.input = rest
  parts : ∃ added, next.parts = branch.parts ++ added ∧ Part.spelled added = text ∧
    ∀ part ∈ added, part.isSpelled = true ∧ part.content ≠ []

theorem spells_typed {content spelled rest : Text} (sound : branch.Overlaid)
    (unfinished : branch.isFinished = false) (nonempty : content ≠ [])
    (split : branch.input = spelled ++ rest) (alike : Text.Alike false spelled content)
    (marker : Option Marker) :
    ∃ next, branch.add { content, kind := .input, marker } = .ok next ∧
      branch.Spells content rest next := by
  obtain ⟨next, added, left, same⟩ := add_typed sound nonempty split alike marker
  refine ⟨next, added, .single (.typed rfl added), ?_, left,
    [{ content, kind := .input, marker }], ?_, ?_, ?_⟩
  · rw [same, withPart_isFinished]
    change (branch.isFinished || false) = false
    simp [unfinished]
  · rw [same, withPart_parts]
  · exact Part.spelled_singleton rfl
  · simp [Part.isSpelled, nonempty]

theorem spells_prefix {content : Text} (sound : branch.Overlaid)
    (unfinished : branch.isFinished = false) (lead : content <+: branch.input)
    (nonempty : content ≠ []) (marker : Option Marker) :
    ∃ next rest, branch.add { content, kind := .input, marker } = .ok next ∧
      branch.Spells content rest next := by
  obtain ⟨rest, split⟩ := lead
  obtain ⟨next, added, spells⟩ :=
    spells_typed sound unfinished nonempty split.symm (Text.Alike.refl content) marker
  exact ⟨next, rest, added, spells⟩

theorem spells_offered {content : Text} {kind : PartKind} (unfinished : branch.isFinished = false)
    (offers : kind = .suggestion ∨ kind = .whitespace) (nonempty : content ≠ [])
    (used : branch.input = []) (marker : Option Marker) :
    ∃ next, branch.add { content, kind, marker } = .ok next ∧ branch.Spells content [] next := by
  have behind : kind = .whitespace ∨ kind = .suggestion ∨ kind = .placeholder := by
    rcases offers with rfl | rfl <;> simp
  have isSpelled : Part.isSpelled { content, kind, marker } = true := by
    rcases offers with rfl | rfl <;> rfl
  have notPlaceholder : (kind == .placeholder) = false := by
    rcases offers with rfl | rfl <;> rfl
  have added : branch.add { content, kind, marker } = .ok _ :=
    add_behind (.inl nonempty) behind used
  refine ⟨_, added, .single (.offered unfinished offers used added), ?_,
    leaveInput_input content used, [{ content, kind, marker }], ?_, ?_, ?_⟩
  · simp [leaveInput_isFinished, unfinished, notPlaceholder]
  · obtain ⟨pastEnd, same⟩ := branch.leaveInput_eq content
    simp [same]
  · exact Part.spelled_singleton isSpelled
  · simp [isSpelled, nonempty]

theorem Spells.append {middle : Branch H} {first second rest rest' : Text}
    (before : branch.Spells first rest middle) (after : middle.Spells second rest' next) :
    branch.Spells (first ++ second) rest' next := by
  obtain ⟨front, parts, text, nonempty⟩ := before.parts
  obtain ⟨back, parts', text', nonempty'⟩ := after.parts
  refine ⟨before.grown.trans after.grown, after.unfinished, after.input, front ++ back, ?_, ?_, ?_⟩
  · rw [parts', parts, List.append_assoc]
  · rw [Part.spelled_append, text, text']
  · intro part member
    exact (List.mem_append.mp member).elim (nonempty part) (nonempty' part)

theorem addOverlap_ok {caseSensitive : Bool} {overlap : Text.Overlap} (sound : branch.Overlaid)
    (unfinished : branch.isFinished = false) (nonempty : text ≠ [])
    (found : Text.overlap? caseSensitive branch.input text = some overlap)
    (marker : Option Marker) :
    ∃ next, branch.addOverlap marker overlap = .ok next ∧
      branch.Spells text overlap.rest next := by
  cases overlap with
  | full matched rest =>
      obtain ⟨rfl, spelled, split, alike⟩ := Text.overlap?_eq_full_iff.mp found
      exact spells_typed sound unfinished nonempty split alike.insensitive marker
  | begun typed suggestion =>
      obtain ⟨rfl, pending, alike⟩ := Text.overlap?_eq_begun_iff.mp found
      by_cases empty : typed = []
      · subst empty
        obtain ⟨next, added, spells⟩ :=
          spells_offered unfinished (.inl rfl) pending (alike.eq_nil_iff.mp rfl) marker
        exact ⟨next, by simpa [addOverlap, bind, Except.bind] using added, spells⟩
      · -- the whole input is a lead of the text
        have split : branch.input = branch.input ++ [] := (List.append_nil branch.input).symm
        obtain ⟨begun, added, spells⟩ :=
          spells_typed sound unfinished empty split alike.insensitive.symm marker
        obtain ⟨next, added', spells'⟩ :=
          spells_offered spells.unfinished (.inl rfl) pending spells.input marker
        refine ⟨next, ?_, spells.append spells'⟩
        simp [addOverlap, empty, added, added', bind, Except.bind]

theorem add_skipped {left content spelled rest : Text} (sound : branch.Overlaid)
    (unfinished : branch.isFinished = false) (gap : left ≠ []) (nonempty : content ≠ [])
    (split : branch.input = spelled ++ rest) (alike : Text.Alike false spelled content)
    (marker : Option Marker) :
    ∃ between next, branch.add ⟨left, .fuzzy, marker⟩ = .ok between ∧
      between.add ⟨content, .input, marker⟩ = .ok next ∧ branch.Grown next ∧
      next.isFinished = false ∧ next.input = rest := by
  have beside : branch.add ⟨left, .fuzzy, marker⟩ = .ok (branch.withPart ⟨left, .fuzzy, marker⟩) :=
    add_eq_ok_iff.mpr (.beside gap rfl)
  have between : (branch.withPart ⟨left, .fuzzy, marker⟩).isFinished = false := by
    rw [withPart_isFinished, unfinished]
    rfl
  obtain ⟨next, added, spells⟩ :=
    spells_typed (sound.withFuzzy rfl) between nonempty split alike marker
  exact ⟨_, next, beside, added, .single (.skipped rfl beside rfl added), spells.unfinished,
    spells.input⟩

theorem addSegments_leads {segments : List Text.Segment} {input : Text} (sound : branch.Overlaid)
    (unfinished : branch.isFinished = false) (reads : Text.Reads input segments)
    (left : branch.input = input) (marker : Option Marker) :
    branch.Leads (segments.foldlM (addSegment marker) branch) := by
  induction reads generalizing branch with
  | done => exact .grown .refl
  | @pending content nonempty =>
      obtain ⟨next, added, spells⟩ := spells_offered unfinished (.inl rfl) nonempty left marker
      have made : addSegment marker branch ⟨content, .pending⟩ = .ok next := added
      rw [List.foldlM_cons, made]
      exact .grown spells.grown
  | @typed lead rest content segments nonempty alike _ ih =>
      obtain ⟨next, added, spells⟩ := spells_typed sound unfinished nonempty left alike marker
      have made : addSegment marker branch ⟨content, .typed⟩ = .ok next := added
      rw [List.foldlM_cons, made]
      exact (ih (sound.grown spells.grown) spells.unfinished spells.input).after spells.grown
  | @skipped lead rest gap content segments nonempty' nonempty alike _ ih =>
      rw [List.foldlM_cons]
      cases scored : branch.addScore (Score.penalty Score.skippedRate gap.length) with
      | error cause =>
          have failed : addSegment marker branch ⟨gap, .skipped⟩ = .error cause := by
            simp [addSegment, scored, bind, Except.bind]
          rw [failed]
          exact .fails (addScore_penalty gap.length (.inl rfl) scored)
      | ok costlier =>
          have same := addScore_eq_ok scored
          have step : branch.Grown costlier := .single (.scored scored)
          have unfinished' : costlier.isFinished = false := by rw [same]; exact unfinished
          have left' : costlier.input = lead ++ rest := by rw [same]; exact left
          obtain ⟨between, next, before, added, grown, open', left''⟩ :=
            add_skipped (sound.grown step) unfinished' nonempty' nonempty left' alike marker
          have made : addSegment marker branch ⟨gap, .skipped⟩ = .ok between := by
            simpa [addSegment, scored, bind, Except.bind, Text.SegmentKind.partKind] using before
          have made' : addSegment marker between ⟨content, .typed⟩ = .ok next := added
          rw [made]
          change branch.Leads
            ((⟨content, .typed⟩ :: segments).foldlM (addSegment marker) between)
          rw [List.foldlM_cons, made']
          have grown' := step.trans grown
          exact (ih (sound.grown grown') open' left'').after grown'

end Branch

end Typeahead
