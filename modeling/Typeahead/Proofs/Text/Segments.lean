import Typeahead.Proofs.Text.Alike
import Typeahead.Text.Subsequence

namespace Typeahead.Text

/-! How the segments of a pattern lie over typed input. -/

/-- The segments read the input to its end: typed ones spell it up to case, what was
skipped stands right before something typed, and only the last one may be pending. -/
inductive Reads : Text → List Segment → Prop
  | done : Reads [] []
  | pending {content : Text} (nonempty : content ≠ []) : Reads [] [⟨content, .pending⟩]
  | typed {lead rest content : Text} {segments : List Segment} (nonempty : content ≠ [])
      (alike : Alike false lead content) (others : Reads rest segments) :
      Reads (lead ++ rest) (⟨content, .typed⟩ :: segments)
  | skipped {lead rest left content : Text} {segments : List Segment} (gap : left ≠ [])
      (nonempty : content ≠ []) (alike : Alike false lead content)
      (others : Reads rest segments) :
      Reads (lead ++ rest) (⟨left, .skipped⟩ :: ⟨content, .typed⟩ :: segments)

/-- A character in front of segments, in the first of them where it has the same fate. -/
def attach (kind : SegmentKind) (letter : Char) : List Segment → List Segment
  | [] => [⟨[letter], kind⟩]
  | ⟨content, next⟩ :: segments =>
      if kind = next then ⟨letter :: content, next⟩ :: segments
      else ⟨[letter], kind⟩ :: ⟨content, next⟩ :: segments

theorem runs_cons (kind : SegmentKind) (letter : Char) (rest : List (SegmentKind × Char)) :
    runs ((kind, letter) :: rest) = attach kind letter (runs rest) := by
  rw [runs]
  cases runs rest with
  | nil => rfl
  | cons segment segments => rfl

theorem runs_uniform (kind : SegmentKind) (letter : Char) (pattern : Text) :
    runs ((letter :: pattern).map (kind, ·)) = [⟨letter :: pattern, kind⟩] := by
  induction pattern generalizing letter with
  | nil => rfl
  | cons next pattern ih =>
      rw [List.map_cons, runs_cons, ih next]
      simp [attach]

namespace Reads

variable {input : Text} {segments : List Segment} {letter next : Char}

theorem attachTyped (same : agree false next letter = true) (reads : Reads input segments) :
    Reads (next :: input) (attach .typed letter segments) := by
  have alone : Alike false [next] [letter] := List.Forall₂.cons same Alike.nil
  cases reads with
  | done => exact typed (by simp) alone done
  | pending nonempty => exact typed (by simp) alone (pending nonempty)
  | typed nonempty alike others => exact typed (by simp) (List.Forall₂.cons same alike) others
  | skipped gap nonempty alike others =>
      exact typed (by simp) alone (skipped gap nonempty alike others)

theorem attachSkipped (left : input ≠ []) (reads : Reads input segments) :
    Reads input (attach .skipped letter segments) := by
  cases reads with
  | done => contradiction
  | pending nonempty => contradiction
  | typed nonempty alike others => exact skipped (by simp) nonempty alike others
  | skipped gap nonempty alike others => exact skipped (by simp) nonempty alike others

theorem of_fates? {caseSensitive : Bool} {pattern : Text} {fates : List (SegmentKind × Char)}
    (found : fates? caseSensitive pattern input = some fates) : Reads input (runs fates) := by
  induction pattern generalizing input fates with
  | nil =>
      cases input with
      | nil =>
          cases found
          exact done
      | cons next input => simp [fates?] at found
  | cons letter pattern ih =>
      cases input with
      | nil =>
          cases found
          rw [runs_uniform]
          exact pending (by simp)
      | cons next input =>
          rw [fates?] at found
          split at found
          · rename_i same
            obtain ⟨others, rest, rfl⟩ := Option.map_eq_some_iff.mp found
            rw [runs_cons]
            refine (ih rest).attachTyped ?_
            exact (agree_comm false next letter).trans (agree_insensitive_of_agree same)
          · obtain ⟨others, rest, rfl⟩ := Option.map_eq_some_iff.mp found
            rw [runs_cons]
            exact (ih rest).attachSkipped (by simp)

theorem of_segments? {caseSensitive : Bool} {pattern : Text} (nonempty : pattern ≠ [])
    (found : segments? { caseSensitive } input pattern = some segments) :
    Reads input segments := by
  rw [segments?] at found
  split at found
  · contradiction
  · rename_i fits
    have short : input.length ≤ pattern.length := by
      simp only [Bool.not_false, Bool.and_true, decide_eq_true_eq] at fits
      omega
    rw [List.take_of_length_le short] at found
    dsimp only at found
    split at found
    · rename_i same
      cases found
      subst same
      have whole := typed nonempty (Alike.refl input) done
      rwa [List.append_nil] at whole
    · obtain ⟨fates, answered, rfl⟩ := Option.map_eq_some_iff.mp found
      exact of_fates? answered

end Reads

end Typeahead.Text
