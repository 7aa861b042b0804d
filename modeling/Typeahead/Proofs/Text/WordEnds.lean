import Typeahead.Proofs.Text.Cuts
import Typeahead.Proofs.Text.Words

namespace Typeahead.Text

/-! The scan for word ends, counted in bytes.

The scan adds up the bytes of what it passes over, and goes on from the offset that it has
reached.  Where it looks at the text there always is a cut between characters, and the offsets
that it lists are the sizes of the leads that end where words do. -/

variable {delimiters : List Text} {text front lead run gap word tail behind rest : Text}
  {leads : List Text} {stops stops' : List Nat} {offset : Nat}

/-! ### Offsets -/

/-- The first delimiter that fits at an offset. -/
def delimiterAt? (delimiters : List Text) (text : Text) (offset : Nat) : Option Text :=
  (text.dropBytes? offset).bind (delimiter? delimiters)

/-- The offset that is reached by passing over one delimiter in each round, while one fits. -/
def runEnd (delimiters : List Text) (text : Text) : (rounds offset : Nat) → Nat
  | 0, offset => offset
  | rounds + 1, offset =>
      match delimiterAt? delimiters text offset with
      | some delimiter => runEnd delimiters text rounds (offset + delimiter.byteSize)
      | none => offset

/-- The size of the delimiter run that opens a text.  Every round passes over a byte at least. -/
def runSize (delimiters : List Text) (text : Text) : Nat :=
  runEnd delimiters text text.byteSize 0

/-- The size of the word that opens a text: it has one character at least, and ends at the
first one behind it where a delimiter begins. -/
def wordSize (delimiters : List Text) (text : Text) : Nat :=
  let first := (text.head?.map Char.utf8Size).getD 0
  let ended := (byteOffsets 0 text).tail.find? fun place =>
    (delimiterAt? delimiters text place.1).isSome
  max first ((ended.map Prod.fst).getD text.byteSize)

/-- The next word end from an offset on, and the offset behind the delimiters that follow it.
There is none at the end of the text, and there would be none where the text cannot be cut. -/
def nextEnd? (delimiters : List Text) (text : Text) (offset : Nat) : Option (Nat × Nat) := do
  let rest ← (text.dropBytes? offset).filter (!·.isEmpty)
  let leading := runSize delimiters rest
  if leading = rest.byteSize then return (text.byteSize, text.byteSize)
  else
    let word ← rest.dropBytes? leading
    let stop := offset + leading + wordSize delimiters word
    let behind ← text.dropBytes? stop
    return (stop, stop + runSize delimiters behind)

/-- The word ends that are found one after another, from an offset on. -/
inductive Scans (delimiters : List Text) (text : Text) : (offset : Nat) → List Nat → Prop
  | done {offset : Nat} (ended : nextEnd? delimiters text offset = none) :
      Scans delimiters text offset []
  | next {offset stop resume : Nat} {stops : List Nat}
      (found : nextEnd? delimiters text offset = some (stop, resume))
      (others : Scans delimiters text resume stops) : Scans delimiters text offset (stop :: stops)

theorem Scans.unique (scans : Scans delimiters text offset stops)
    (scans' : Scans delimiters text offset stops') : stops = stops' := by
  induction scans generalizing stops' with
  | done ended =>
      cases scans' with
      | done _ => rfl
      | next found _ =>
          rw [ended] at found
          contradiction
  | next found _ ih =>
      cases scans' with
      | done ended =>
          rw [found] at ended
          contradiction
      | next found' others' =>
          rw [found] at found'
          cases found'
          rw [ih others']

/-! ### What is passed over -/

theorem delimiterAt?_byteSize (front rest : Text) :
    delimiterAt? delimiters (front ++ rest) front.byteSize = delimiter? delimiters rest := by
  rw [delimiterAt?, dropBytes?_byteSize, Option.bind_some]

theorem length_le_byteSize (text : Text) : text.length ≤ text.byteSize := by
  induction text with
  | nil => exact Nat.le_refl 0
  | cons letter text ih =>
      have positive := letter.utf8Size_pos
      rw [byteSize_cons, List.length_cons]
      omega

theorem Strips.runEnd_eq {rounds : Nat} (strips : Strips delimiters run rest) (front : Text)
    (enough : run.length ≤ rounds) :
    runEnd delimiters (front ++ (run ++ rest)) rounds front.byteSize =
      (front ++ run).byteSize := by
  induction strips generalizing front rounds with
  | @done rest closed =>
      have nothing := delimiter?_eq_none_iff.mpr closed
      rw [List.nil_append, List.append_nil]
      cases rounds with
      | zero => rfl
      | succ rounds => rw [runEnd, delimiterAt?_byteSize, nothing]
  | @strip delimiter run rest first _ ih =>
      have fits := delimiter?_eq_some_iff.mpr first
      have positive := List.length_pos_iff.mpr first.1.1
      rw [List.length_append] at enough
      obtain ⟨rounds, rfl⟩ := Nat.exists_eq_add_one.mpr (show 0 < rounds by omega)
      have enough' : run.length ≤ rounds := by omega
      have further := ih (front ++ delimiter) enough'
      rw [List.append_assoc delimiter, runEnd, delimiterAt?_byteSize, fits]
      simpa [Nat.add_assoc] using further

theorem Strips.runSize_eq (strips : Strips delimiters run rest) :
    runSize delimiters (run ++ rest) = run.byteSize := by
  have enough : run.length ≤ (run ++ rest).byteSize := by
    have shorter := length_le_byteSize run
    rw [byteSize_append]
    omega
  have ends := strips.runEnd_eq [] enough
  rwa [List.nil_append, byteSize_nil, List.nil_append] at ends

/-- The first place where a delimiter begins is the one behind a stretch in which none does. -/
theorem find_delimiterAt (front tail : Text)
    (clear : ∀ place < tail.length, ¬ Opens delimiters ((tail ++ rest).drop place))
    (ended : rest = [] ∨ Opens delimiters rest) :
    (((byteOffsets front.byteSize (tail ++ rest)).find? fun place =>
        (delimiterAt? delimiters (front ++ (tail ++ rest)) place.1).isSome).map Prod.fst).getD
      (front ++ (tail ++ rest)).byteSize = (front ++ tail).byteSize := by
  induction tail generalizing front with
  | nil =>
      rcases ended with rfl | opens
      · simp [byteOffsets]
      · rw [← not_not (a := Opens delimiters rest), ← delimiter?_eq_none_iff] at opens
        cases rest with
        | nil => exact absurd (delimiter?_eq_none_iff.mpr not_opens_nil) opens
        | cons letter body =>
            have here := Option.isSome_iff_ne_none.mpr opens
            rw [List.nil_append, byteOffsets, List.find?_cons_of_pos]
            · simp
            · rw [delimiterAt?_byteSize, here]
  | cons letter tail ih =>
      have closed := clear 0 (by simp)
      rw [List.drop_zero, ← delimiter?_eq_none_iff] at closed
      have further := ih (front ++ [letter]) fun place inside =>
        clear (place + 1) (by simpa using inside)
      have size : (front ++ [letter]).byteSize = front.byteSize + letter.utf8Size := by
        rw [byteSize_append, byteSize_cons, byteSize_nil, Nat.add_zero]
      rw [size] at further
      rw [List.cons_append, byteOffsets, List.find?_cons_of_neg]
      · simpa using further
      · rw [delimiterAt?_byteSize, ← List.cons_append, closed]
        exact Bool.false_ne_true

theorem IsWord.wordSize_eq (isWord : IsWord delimiters word rest) :
    wordSize delimiters (word ++ rest) = word.byteSize := by
  cases word with
  | nil => exact absurd rfl isWord.nonempty
  | cons letter tail =>
      have ends := find_delimiterAt [letter] tail
        (fun place inside => isWord.clear (place + 1) (by simpa using inside)) isWord.ended
      have size : byteSize [letter] = 0 + letter.utf8Size := by
        rw [byteSize_cons, byteSize_nil, Nat.add_comm]
      rw [size] at ends
      have first : letter.utf8Size ≤ byteSize (letter :: tail) := by
        rw [byteSize_cons]
        exact Nat.le_add_right _ _
      exact (congrArg (max letter.utf8Size) ends).trans (Nat.max_eq_right first)

/-! ### The scan -/

/-- One word further, and over the delimiters behind it. -/
theorem nextEnd?_of_isWord (front : Text)
    (divided : Strips delimiters gap (word ++ (run ++ behind)))
    (isWord : IsWord delimiters word (run ++ behind)) (strips : Strips delimiters run behind) :
    nextEnd? delimiters (front ++ (gap ++ (word ++ (run ++ behind)))) front.byteSize =
      some ((front ++ (gap ++ word)).byteSize, (front ++ (gap ++ word) ++ run).byteSize) := by
  have whole : front ++ (gap ++ (word ++ (run ++ behind))) =
      front ++ (gap ++ word) ++ (run ++ behind) := by simp
  have stop : front.byteSize + gap.byteSize + word.byteSize = (front ++ (gap ++ word)).byteSize := by
    simp [Nat.add_assoc]
  have left : (some (gap ++ (word ++ (run ++ behind)))).filter (!·.isEmpty) =
      some (gap ++ (word ++ (run ++ behind))) := by simp [isWord.nonempty]
  have several : gap.byteSize ≠ (gap ++ (word ++ (run ++ behind))).byteSize := by
    have positive := List.length_pos_iff.mpr isWord.nonempty
    have sized := length_le_byteSize word
    simp only [byteSize_append]
    omega
  rw [nextEnd?, dropBytes?_byteSize, left]
  simp only [Option.bind_eq_bind, Option.bind_some, divided.runSize_eq, several, if_false,
    dropBytes?_byteSize, isWord.wordSize_eq, stop]
  rw [whole, dropBytes?_byteSize, Option.bind_some, strips.runSize_eq]
  simp [Nat.add_assoc]

theorem nextEnd?_byteSize (text : Text) : nextEnd? delimiters text text.byteSize = none := by
  have cut := dropBytes?_byteSize text []
  rw [List.append_nil] at cut
  rw [nextEnd?, cut]
  rfl

theorem Follows.scans (follows : Follows delimiters lead rest leads) :
    ∃ run behind, rest = run ++ behind ∧ Strips delimiters run behind ∧
      Scans delimiters (lead ++ rest) (lead ++ run).byteSize (leads.map byteSize) := by
  induction follows with
  | @done lead rest tail =>
      exact ⟨rest, [], (List.append_nil rest).symm, tail, .done (nextEnd?_byteSize _)⟩
  | @word lead gap word rest leads _ divided isWord _ ih =>
      obtain ⟨run, behind, rfl, strips, others⟩ := ih
      have found := nextEnd?_of_isWord (lead ++ gap) (.done divided.closed) isWord strips
      simp only [List.nil_append, List.append_assoc] at found others
      exact ⟨gap, word ++ (run ++ behind), rfl, divided, .next found others⟩

theorem Enumerates.scans (enumerates : Enumerates delimiters text leads) :
    Scans delimiters text 0 (leads.map byteSize) := by
  cases enumerates with
  | empty => exact .done rfl
  | divider nonempty whole =>
      have size := whole.runSize_eq
      rw [List.append_nil] at size
      have left : (some text).filter (!·.isEmpty) = some text := by simp [nonempty]
      refine .next ?_ (.done (nextEnd?_byteSize text))
      rw [nextEnd?, dropBytes?_zero, left]
      simp [size]
  | @words run word rest leads divided isWord others =>
      obtain ⟨gap, behind, rfl, strips, further⟩ := others.scans
      have found := nextEnd?_of_isWord [] divided isWord strips
      simp only [List.nil_append, List.append_assoc, byteSize_nil] at found further
      exact .next found further

/-- The leads that are listed are the one enumeration of the words of a text: they grow, and
unless the text is one delimiter run they are all its word ends.  Counted in bytes, the scan
stops at their sizes, where the text is cut between characters. -/
theorem wordPrefixes_enumerate (delimiters : List Text) (text : Text) :
    (∀ leads, wordPrefixes delimiters text = leads ↔ Enumerates delimiters text leads) ∧
      (∀ lead ∈ wordPrefixes delimiters text, lead ≠ [] ∧ lead <+: text) ∧
      ((wordPrefixes delimiters text).Pairwise fun lead next => lead.length < next.length) ∧
      (¬ Strips delimiters text [] → ∀ lead, lead ∈ wordPrefixes delimiters text ↔
        ∃ rest, text = lead ++ rest ∧ WordEnd delimiters lead rest) ∧
      (∀ stops, Scans delimiters text 0 stops ↔
        stops = (wordPrefixes delimiters text).map byteSize) ∧
      ∀ lead ∈ wordPrefixes delimiters text, ∃ rest, CutAt text lead.byteSize lead rest := by
  obtain ⟨leads, enumerates⟩ := exists_enumerates delimiters text
  have listed := enumerates.wordPrefixes_eq
  obtain ⟨fronts, sorted⟩ := enumerates.grow
  rw [listed]
  refine ⟨?_, fronts, sorted, fun several lead => enumerates.mem_iff several, ?_, ?_⟩
  · intro leads'
    constructor
    · intro same
      rwa [← same]
    · intro enumerates'
      rw [← listed, enumerates'.wordPrefixes_eq]
  · intro stops
    constructor
    · intro scans
      exact scans.unique enumerates.scans
    · intro same
      rw [same]
      exact enumerates.scans
  · intro lead member
    obtain ⟨rest, same⟩ := (fronts lead member).2
    exact ⟨rest, cutAt_iff.mpr ⟨same.symm, rfl⟩⟩

example : wordPrefixes [[' '], [',']] ",12 , 45".toList = [",12".toList, ",12 , 45".toList] := by
  cbv

end Typeahead.Text
