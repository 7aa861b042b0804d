import Typeahead.Proofs.Text.Segments

namespace Typeahead.Text

/-! Typed text that is exchanged for alike text is matched alike. -/

variable {caseSensitive : Bool} {left right input input' pattern : Text}

/-- Text that agrees where case matters agrees as well where it matters no more. -/
theorem Alike.weaken {strict : Bool} (weaker : caseSensitive = true → strict = true)
    (alike : Alike strict left right) : Alike caseSensitive left right := by
  cases caseSensitive with
  | true => rwa [weaker rfl] at alike
  | false => exact alike.insensitive

theorem Alike.drop (alike : Alike caseSensitive left right) (count : Nat) :
    Alike caseSensitive (left.drop count) (right.drop count) :=
  List.forall₂_drop count alike

theorem agree_congr {letter next next' : Char} (agrees : agree caseSensitive next next' = true) :
    agree caseSensitive letter next = agree caseSensitive letter next' := by
  rw [Bool.eq_iff_iff]
  constructor
  · intro same
    exact agree_trans same agrees
  · intro same
    exact agree_trans same ((agree_comm caseSensitive next' next).trans agrees)

theorem splitLead?_of_exchange {lead spelled rest : Text} (alike : Alike caseSensitive input input')
    (found : splitLead? caseSensitive input lead = some (spelled, rest)) :
    ∃ spelled' rest', splitLead? caseSensitive input' lead = some (spelled', rest') ∧
      spelled.length = spelled'.length := by
  obtain ⟨rfl, reads⟩ := splitLead?_eq_some_iff.mp found
  obtain ⟨front, behind⟩ := alike.symm.cut
  refine ⟨_, _, splitLead?_eq_some_iff.mpr
    ⟨(List.take_append_drop spelled.length input').symm, front.trans reads⟩, ?_⟩
  exact front.length_eq.symm

namespace Overlap

/-- Overlaps that differ in the spelling of what lies behind the text. -/
inductive Agrees (caseSensitive : Bool) : Overlap → Overlap → Prop
  | full {matched rest rest' : Text} (behind : Alike caseSensitive rest rest') :
      Agrees caseSensitive (.full matched rest) (.full matched rest')
  | begun (typed suggestion : Text) :
      Agrees caseSensitive (.begun typed suggestion) (.begun typed suggestion)

theorem Agrees.isFull {overlap overlap' : Overlap}
    (agrees : overlap.Agrees caseSensitive overlap') : overlap.isFull = overlap'.isFull := by
  cases agrees <;> rfl

end Overlap

theorem overlap?_of_exchange {text : Text} {overlap : Overlap}
    (alike : Alike caseSensitive input input')
    (found : overlap? caseSensitive input text = some overlap) :
    ∃ overlap', overlap? caseSensitive input' text = some overlap' ∧
      overlap.Agrees caseSensitive overlap' := by
  cases overlap with
  | full matched rest =>
      obtain ⟨rfl, spelled, rfl, reads⟩ := overlap?_eq_full_iff.mp found
      obtain ⟨front, behind⟩ := alike.symm.cut
      refine ⟨.full matched (input'.drop spelled.length), ?_, .full behind.symm⟩
      exact overlap?_eq_full_iff.mpr ⟨rfl, input'.take spelled.length,
        (List.take_append_drop spelled.length input').symm, front.trans reads⟩
  | begun typed suggestion =>
      obtain ⟨whole, pending, reads⟩ := overlap?_eq_begun_iff.mp found
      exact ⟨.begun typed suggestion,
        overlap?_eq_begun_iff.mpr ⟨whole, pending, reads.trans alike⟩, .begun typed suggestion⟩

theorem overlap?_agrees (alike : Alike caseSensitive input input') (text : Text) :
    Option.Rel (Overlap.Agrees caseSensitive) (overlap? caseSensitive input text)
      (overlap? caseSensitive input' text) := by
  cases found : overlap? caseSensitive input text with
  | some overlap =>
      obtain ⟨overlap', found', agrees⟩ := overlap?_of_exchange alike found
      rw [found']
      exact .some agrees
  | none =>
      cases found' : overlap? caseSensitive input' text with
      | none => exact .none
      | some overlap' =>
          obtain ⟨_, impossible, _⟩ := overlap?_of_exchange alike.symm found'
          rw [found] at impossible
          contradiction

/-! ### Subsequences -/

theorem fates?_congr (alike : Alike caseSensitive input input') (pattern : Text) :
    fates? caseSensitive pattern input = fates? caseSensitive pattern input' := by
  induction pattern generalizing input input' with
  | nil =>
      cases alike with
      | nil => rfl
      | cons _ _ => rfl
  | cons letter pattern ih =>
      cases alike with
      | nil => rfl
      | @cons next next' rest rest' agrees others =>
          simp only [fates?]
          rw [agree_congr agrees, ih others, ih (List.Forall₂.cons agrees others)]

theorem fates?_of_alike (alike : Alike caseSensitive pattern input) :
    fates? caseSensitive pattern input = some (pattern.map (.typed, ·)) := by
  rw [Alike] at alike
  induction alike with
  | nil => rfl
  | cons agrees _ ih => simp [fates?, agrees, ih]

theorem length_le_of_fates? {fates : List (SegmentKind × Char)}
    (found : fates? caseSensitive pattern input = some fates) :
    input.length ≤ pattern.length := by
  induction pattern generalizing input fates with
  | nil =>
      cases input with
      | nil => simp
      | cons next input => simp [fates?] at found
  | cons letter pattern ih =>
      cases input with
      | nil => simp
      | cons next input =>
          simp only [fates?] at found
          split at found
          · obtain ⟨others, rest, _⟩ := Option.map_eq_some_iff.mp found
            exact Nat.succ_le_succ (ih rest)
          · obtain ⟨others, rest, _⟩ := Option.map_eq_some_iff.mp found
            exact Nat.le_succ_of_le (ih rest)

/-- Refusing long input and answering equal input at once changes nothing: both are what
reading the pattern from the left comes to. -/
theorem segments?_eq_fates? (nonempty : pattern ≠ []) :
    segments? { caseSensitive } input pattern =
      (fates? caseSensitive pattern input).map runs := by
  rw [segments?]
  by_cases long : pattern.length < input.length
  · rw [if_pos (by simpa using long)]
    cases found : fates? caseSensitive pattern input with
    | none => rfl
    | some fates => exact absurd (length_le_of_fates? found) (by omega)
  · rw [if_neg (by simpa using long)]
    rw [List.take_of_length_le (by omega)]
    dsimp only
    split
    · rename_i same
      subst same
      obtain ⟨letter, rest, rfl⟩ := List.exists_cons_of_ne_nil nonempty
      rw [fates?_of_alike (Alike.refl _), Option.map_some, runs_uniform]
    · rfl

theorem segments?_congr (alike : Alike caseSensitive input input') (nonempty : pattern ≠ []) :
    segments? { caseSensitive } input pattern = segments? { caseSensitive } input' pattern := by
  rw [segments?_eq_fates? nonempty, segments?_eq_fates? nonempty, fates?_congr alike]

end Typeahead.Text
