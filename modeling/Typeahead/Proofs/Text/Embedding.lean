import Mathlib.Order.Bounds.Basic
import Typeahead.Proofs.Text.Folding

namespace Typeahead.Text

/-! Input that is found in a pattern.

An embedding finds the characters of the input in the pattern, one behind the other,
and leaves characters of the pattern out.  Reading the pattern once from the left finds
an embedding whenever there is one, and no embedding leaves out less in front of the
last character that it finds. -/

/-- The input is found in the pattern, with so many characters left out in front of the
last one that is found.  What lies behind that one does not count. -/
inductive Embeds (caseSensitive : Bool) : (pattern input : Text) → Nat → Prop
  | used (pattern : Text) : Embeds caseSensitive pattern [] 0
  | found {letter next : Char} {pattern input : Text} {count : Nat}
      (same : agree caseSensitive letter next = true)
      (others : Embeds caseSensitive pattern input count) :
      Embeds caseSensitive (letter :: pattern) (next :: input) count
  | leftOut {letter next : Char} {pattern input : Text} {count : Nat}
      (others : Embeds caseSensitive pattern (next :: input) count) :
      Embeds caseSensitive (letter :: pattern) (next :: input) (count + 1)

variable {caseSensitive : Bool} {pattern input : Text} {letter next : Char} {count : Nat}
  {fates : List (SegmentKind × Char)} {segments : List Segment}

namespace Embeds

/-- One more character in front of the pattern is one more left out at most. -/
theorem behind (embeds : Embeds caseSensitive pattern input count) (letter : Char) :
    ∃ fewer ≤ count + 1, Embeds caseSensitive (letter :: pattern) input fewer := by
  cases input with
  | nil => exact ⟨0, Nat.zero_le _, used _⟩
  | cons next input => exact ⟨count + 1, Nat.le_refl _, leftOut embeds⟩

/-- Without its first character the input is found where it was, and the place of that
character is left out at most. -/
theorem tail (embeds : Embeds caseSensitive pattern (next :: input) count) :
    ∃ fewer ≤ count + 1, Embeds caseSensitive pattern input fewer := by
  induction pattern generalizing count with
  | nil => cases embeds
  | cons letter pattern ih =>
      cases embeds with
      | found same others => exact others.behind letter
      | leftOut others =>
          obtain ⟨fewer, bound, embeds⟩ := ih others
          obtain ⟨fewest, bound', embeds'⟩ := embeds.behind letter
          exact ⟨fewest, by omega, embeds'⟩

theorem sublistForall₂ (embeds : Embeds caseSensitive pattern input count) :
    List.SublistForall₂ (fun next letter => agree caseSensitive letter next = true)
      input pattern := by
  induction embeds with
  | used pattern => exact .nil
  | found same _ ih => exact .cons same ih
  | leftOut _ ih => exact .cons_right ih

theorem of_sublistForall₂
    (sublist : List.SublistForall₂ (fun next letter => agree caseSensitive letter next = true)
      input pattern) : ∃ count, Embeds caseSensitive pattern input count := by
  induction sublist with
  | nil => exact ⟨0, used _⟩
  | cons same _ ih =>
      obtain ⟨count, embeds⟩ := ih
      exact ⟨count, found same embeds⟩
  | cons_right _ ih =>
      obtain ⟨count, embeds⟩ := ih
      obtain ⟨fewer, _, embeds'⟩ := embeds.behind _
      exact ⟨fewer, embeds'⟩

end Embeds

/-! ### The fates of characters -/

/-- The characters of one fate, in order. -/
def fated (kind : SegmentKind) (fates : List (SegmentKind × Char)) : Text :=
  (fates.filter (·.1 = kind)).map Prod.snd

theorem fated_cons (kind : SegmentKind) (fate : SegmentKind × Char) :
    fated kind (fate :: fates) =
      if fate.1 = kind then fate.2 :: fated kind fates else fated kind fates := by
  by_cases same : fate.1 = kind <;> simp [fated, same]

theorem fated_pending {kind : SegmentKind} (other : kind ≠ .pending) (pattern : Text) :
    fated kind (pattern.map (.pending, ·)) = [] := by
  simp [fated, other.symm]

/-- How the fates of a pattern lie over the input that is found in it. -/
structure Finds (caseSensitive : Bool) (pattern input : Text)
    (fates : List (SegmentKind × Char)) : Prop where
  whole : fates.map Prod.snd = pattern
  typed : Alike caseSensitive (fated .typed fates) input
  embeds : Embeds caseSensitive pattern input (fated .skipped fates).length

theorem finds_fates? (found : fates? caseSensitive pattern input = some fates) :
    Finds caseSensitive pattern input fates := by
  induction pattern generalizing input fates with
  | nil =>
      cases input with
      | nil =>
          cases found
          exact ⟨rfl, .nil, .used []⟩
      | cons next input => simp [fates?] at found
  | cons letter pattern ih =>
      cases input with
      | nil =>
          cases found
          refine ⟨by simp [Function.comp_def], ?_, ?_⟩
          · rw [fated_pending (by decide)]
            exact .nil
          · rw [fated_pending (by decide)]
            exact .used _
      | cons next input =>
          rw [fates?] at found
          split at found
          · rename_i same
            obtain ⟨others, rest, rfl⟩ := Option.map_eq_some_iff.mp found
            have behind := ih rest
            refine ⟨by simp [behind.whole], ?_, ?_⟩
            · rw [fated_cons]
              exact List.Forall₂.cons same behind.typed
            · rw [fated_cons]
              exact .found same behind.embeds
          · obtain ⟨others, rest, rfl⟩ := Option.map_eq_some_iff.mp found
            have behind := ih rest
            refine ⟨by simp [behind.whole], ?_, ?_⟩
            · rw [fated_cons]
              exact behind.typed
            · rw [fated_cons]
              exact .leftOut behind.embeds

/-- The first place that fits a character is never a worse one: every embedding could
have found the character there. -/
theorem exists_fates?_le (embeds : Embeds caseSensitive pattern input count) :
    ∃ fates, fates? caseSensitive pattern input = some fates ∧
      (fated .skipped fates).length ≤ count := by
  induction pattern generalizing input count with
  | nil =>
      cases embeds with
      | used => exact ⟨[], rfl, Nat.le_refl 0⟩
  | cons letter pattern ih =>
      cases input with
      | nil =>
          refine ⟨_, rfl, ?_⟩
          rw [fated_pending (by decide)]
          exact Nat.zero_le count
      | cons next input =>
          by_cases same : agree caseSensitive letter next = true
          · obtain ⟨fewer, bound, embeds'⟩ :
                ∃ fewer ≤ count, Embeds caseSensitive pattern input fewer := by
              cases embeds with
              | found _ others => exact ⟨count, Nat.le_refl count, others⟩
              | leftOut others => exact others.tail
            obtain ⟨fates, found, least⟩ := ih embeds'
            refine ⟨(.typed, letter) :: fates, by simp [fates?, same, found], ?_⟩
            rw [fated_cons]
            exact least.trans bound
          · cases embeds with
            | found agrees _ => exact absurd agrees same
            | leftOut others =>
                obtain ⟨fates, found, least⟩ := ih others
                refine ⟨(.skipped, letter) :: fates, by simp [fates?, same, found], ?_⟩
                rw [fated_cons]
                exact Nat.succ_le_succ least

theorem isLeast_fates? (found : fates? caseSensitive pattern input = some fates) :
    IsLeast {count | Embeds caseSensitive pattern input count}
      (fated .skipped fates).length := by
  refine ⟨(finds_fates? found).embeds, ?_⟩
  intro count embeds
  obtain ⟨fates', found', least⟩ := exists_fates?_le embeds
  rw [found] at found'
  cases found'
  exact least

/-! ### Characters in segments -/

/-- The characters of the segments of one kind, in order. -/
def lettersOf (kind : SegmentKind) (segments : List Segment) : Text :=
  (segments.filter (·.kind = kind)).flatMap (·.content)

theorem contents_attach (kind : SegmentKind) (letter : Char) (segments : List Segment) :
    (attach kind letter segments).flatMap (·.content) =
      letter :: segments.flatMap (·.content) := by
  cases segments with
  | nil => rfl
  | cons segment segments =>
      rw [attach]
      split <;> simp

theorem lettersOf_attach (kind own : SegmentKind) (letter : Char) (segments : List Segment) :
    lettersOf kind (attach own letter segments) =
      if own = kind then letter :: lettersOf kind segments else lettersOf kind segments := by
  cases segments with
  | nil => by_cases same : own = kind <;> simp [attach, lettersOf, same]
  | cons segment segments =>
      rw [attach]
      split
      · rename_i merged
        by_cases same : segment.kind = kind <;> simp [lettersOf, merged, same]
      · by_cases same : own = kind <;> simp [lettersOf, same]

/-- Neighbours have different fates. -/
def Alternate (segments : List Segment) : Prop :=
  segments.IsChain fun segment next => segment.kind ≠ next.kind

/-- Every character stands in a segment of its fate, and no segment could be longer. -/
structure Segmented (fates : List (SegmentKind × Char)) (segments : List Segment) : Prop where
  whole : segments.flatMap (·.content) = fates.map Prod.snd
  letters : ∀ kind, lettersOf kind segments = fated kind fates
  nonempty : ∀ segment ∈ segments, segment.content ≠ []
  alternate : Alternate segments

theorem nonempty_attach {kind : SegmentKind}
    (nonempty : ∀ segment ∈ segments, segment.content ≠ []) :
    ∀ segment ∈ attach kind letter segments, segment.content ≠ [] := by
  intro segment member
  cases segments with
  | nil =>
      rw [attach, List.mem_singleton] at member
      simp [member]
  | cons first segments =>
      rw [attach] at member
      split at member
      · rcases List.mem_cons.mp member with rfl | behind
        · simp
        · exact nonempty segment (List.mem_cons_of_mem first behind)
      · rcases List.mem_cons.mp member with rfl | behind
        · simp
        · exact nonempty segment behind

theorem alternate_attach {kind : SegmentKind} (alternate : Alternate segments) :
    Alternate (attach kind letter segments) := by
  cases segments with
  | nil => exact .singleton _
  | cons segment segments =>
      rw [attach]
      split
      · -- the kind of the first segment is what it was
        cases alternate with
        | singleton => exact .singleton _
        | cons_cons different others => exact .cons_cons different others
      · rename_i different
        exact .cons_cons different alternate

theorem segmented_runs (fates : List (SegmentKind × Char)) : Segmented fates (runs fates) := by
  induction fates with
  | nil => exact ⟨rfl, fun _ => rfl, by simp [runs], .nil⟩
  | cons fate fates ih =>
      obtain ⟨kind, letter⟩ := fate
      rw [runs_cons]
      refine ⟨?_, ?_, nonempty_attach ih.nonempty, alternate_attach ih.alternate⟩
      · rw [contents_attach, ih.whole, List.map_cons]
      · intro own
        rw [lettersOf_attach, fated_cons, ih.letters]

namespace Reads

/-- Nothing comes behind what is pending, and right in front of it something was typed,
unless there is no input. -/
theorem pending_last (reads : Reads input segments) {front behind : List Segment}
    {segment : Segment} (cut : segments = front ++ segment :: behind)
    (pending : segment.kind = .pending) :
    behind = [] ∧
      (input = [] ∧ front = [] ∨ ∃ last, front.getLast? = some last ∧ last.kind = .typed) := by
  induction reads generalizing front with
  | done => simp at cut
  | pending nonempty =>
      cases front with
      | nil =>
          obtain ⟨_, rfl⟩ := List.cons.inj cut
          exact ⟨rfl, .inl ⟨rfl, rfl⟩⟩
      | cons first front => simp at cut
  | typed nonempty alike others ih =>
      cases front with
      | nil =>
          obtain ⟨rfl, _⟩ := List.cons.inj cut
          contradiction
      | cons first front =>
          obtain ⟨rfl, within⟩ := List.cons.inj cut
          obtain ⟨ended, ⟨_, rfl⟩ | ⟨last, found, typed⟩⟩ := ih within
          · exact ⟨ended, .inr ⟨_, rfl, rfl⟩⟩
          · exact ⟨ended, .inr ⟨last, by simp [List.getLast?_cons, found], typed⟩⟩
  | skipped gap nonempty alike others ih =>
      match front with
      | [] =>
          obtain ⟨rfl, _⟩ := List.cons.inj cut
          contradiction
      | [first] =>
          obtain ⟨_, within⟩ := List.cons.inj cut
          obtain ⟨rfl, _⟩ := List.cons.inj within
          contradiction
      | first :: second :: front =>
          obtain ⟨_, within⟩ := List.cons.inj cut
          obtain ⟨rfl, inside⟩ := List.cons.inj within
          obtain ⟨ended, ⟨_, rfl⟩ | ⟨last, found, typed⟩⟩ := ih inside
          · exact ⟨ended, .inr ⟨_, rfl, rfl⟩⟩
          · exact ⟨ended, .inr ⟨last, by simp [List.getLast?_cons, found], typed⟩⟩

theorem last_ne_skipped (reads : Reads input segments) {last : Segment}
    (found : segments.getLast? = some last) : last.kind ≠ .skipped := by
  induction reads with
  | done => simp at found
  | pending nonempty =>
      cases found
      simp
  | @typed lead rest content segments nonempty alike others ih =>
      cases segments with
      | nil =>
          cases found
          simp
      | cons next segments => exact ih (by simpa [List.getLast?_cons] using found)
  | @skipped lead rest left content segments gap nonempty alike others ih =>
      cases segments with
      | nil =>
          cases found
          simp
      | cons next segments => exact ih (by simpa [List.getLast?_cons] using found)

end Reads

/-- Segments of a pattern over the input that is found in it, with as little left out as
possible. -/
structure Tightest (caseSensitive : Bool) (pattern input : Text) (segments : List Segment) :
    Prop where
  whole : segments.flatMap (·.content) = pattern
  nonempty : ∀ segment ∈ segments, segment.content ≠ []
  alternate : Alternate segments
  /-- What is pending comes last, behind something typed or instead of any input. -/
  pendingLast : ∀ front segment behind, segments = front ++ segment :: behind →
    segment.kind = .pending → behind = [] ∧
      (input = [] ∧ segment.content = pattern ∨
        ∃ last, front.getLast? = some last ∧ last.kind = .typed)
  lastKept : ∀ last, segments.getLast? = some last → last.kind ≠ .skipped
  typed : Alike caseSensitive (lettersOf .typed segments) input
  least : IsLeast {count | Embeds caseSensitive pattern input count}
    (lettersOf .skipped segments).length

theorem tightest_segments? (nonempty : pattern ≠ [])
    (found : segments? { caseSensitive } input pattern = some segments) :
    Tightest caseSensitive pattern input segments := by
  have reads := Reads.of_segments? nonempty found
  rw [segments?_eq_fates? nonempty] at found
  obtain ⟨fates, answered, rfl⟩ := Option.map_eq_some_iff.mp found
  have finds := finds_fates? answered
  have segmented := segmented_runs fates
  have whole := segmented.whole.trans finds.whole
  refine ⟨whole, segmented.nonempty, segmented.alternate, ?_, fun _ => reads.last_ne_skipped,
    ?_, ?_⟩
  · intro front segment behind cut pending
    obtain ⟨rfl, ⟨used, rfl⟩ | typed⟩ := reads.pending_last cut pending
    · rw [cut] at whole
      exact ⟨rfl, .inl ⟨used, by simpa using whole⟩⟩
    · exact ⟨rfl, .inr typed⟩
  · rw [segmented.letters]
    exact finds.typed
  · rw [segmented.letters]
    exact isLeast_fates? answered

/-- The segments of a pattern exist exactly when the input is found in it, in order, and
then they leave out as little as possible.  Input that may be cut counts as far as the
pattern is long, and answering equal input at once answers what reading comes to. -/
theorem segments?_tightest (caseSensitive : Bool) (input : Text) {pattern : Text}
    (nonempty : pattern ≠ []) :
    ((segments? { caseSensitive } input pattern).isSome = true ↔
      List.SublistForall₂ (fun next letter => agree caseSensitive letter next = true)
        input pattern) ∧
    (∀ segments, segments? { caseSensitive } input pattern = some segments →
      Tightest caseSensitive pattern input segments) ∧
    (∀ truncate, segments? { caseSensitive, truncate := true } input pattern =
      segments? { caseSensitive, truncate } (input.take pattern.length) pattern) ∧
    (fates? caseSensitive pattern pattern).map runs = some [⟨pattern, .typed⟩] := by
  refine ⟨⟨?_, ?_⟩, fun _ => tightest_segments? nonempty, ?_, ?_⟩
  · intro answered
    obtain ⟨segments, found⟩ := Option.isSome_iff_exists.mp answered
    exact (tightest_segments? nonempty found).least.1.sublistForall₂
  · intro sublist
    obtain ⟨count, embeds⟩ := Embeds.of_sublistForall₂ sublist
    obtain ⟨fates, found, _⟩ := exists_fates?_le embeds
    rw [segments?_eq_fates? nonempty, found]
    rfl
  · intro truncate
    simp [segments?, List.take_take]
  · rw [← segments?_eq_fates? nonempty]
    simp [segments?]

/-- The first `o` is found and not the second one, which would leave out more. -/
theorem segments?_tightest_lorem :
    let pattern := ['l', 'o', 'r', 'e', 'm', ' ', 'd', 'o']
    let segments : List Segment := [⟨['l'], .skipped⟩, ⟨['o'], .typed⟩, ⟨['r', 'e'], .skipped⟩,
      ⟨['m'], .typed⟩, ⟨[' ', 'd', 'o'], .pending⟩]
    pattern ≠ [] ∧ segments? { caseSensitive := false } ['O', 'm'] pattern = some segments ∧
      Tightest false pattern ['O', 'm'] segments ∧
      List.SublistForall₂ (fun next letter => agree false letter next = true) ['O', 'm'] pattern ∧
      segments? { caseSensitive := false, truncate := true } (pattern ++ ['r']) pattern =
        some [⟨pattern, .typed⟩] := by
  intro pattern segments
  have nonempty : pattern ≠ [] := by decide
  have found : segments? { caseSensitive := false } ['O', 'm'] pattern = some segments := by
    decide
  obtain ⟨exists_iff, tightest, _, _⟩ := segments?_tightest false ['O', 'm'] nonempty
  obtain ⟨_, _, cut, _⟩ := segments?_tightest false (pattern ++ ['r']) nonempty
  refine ⟨nonempty, found, tightest segments found, exists_iff.mp (by rw [found]; rfl), ?_⟩
  rw [cut false]
  decide

end Typeahead.Text
