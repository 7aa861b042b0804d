import Mathlib.Data.List.Pairwise
import Typeahead.Text.Words

namespace Typeahead.Text

/-! Words and the delimiter runs between them.

A delimiter run and a word are said without the scan that finds them: a run is what
stripping delimiters takes off, and a word is a stretch in which no delimiter begins.
A text divides into runs and words in one way, and the word ends that are listed are
those of that division. -/

/-- Empty delimiters never fit. -/
def Fits (delimiter text : Text) : Prop := delimiter ≠ [] ∧ delimiter <+: text

/-- Some delimiter fits at the front of the text. -/
def Opens (delimiters : List Text) (text : Text) : Prop :=
  ∃ delimiter ∈ delimiters, Fits delimiter text

/-- No delimiter that is listed earlier fits. -/
def FirstFit (delimiters : List Text) (text delimiter : Text) : Prop :=
  Fits delimiter text ∧ ∃ earlier later, delimiters = earlier ++ delimiter :: later ∧
    ∀ other ∈ earlier, ¬ Fits other text

/-- Stripping the first delimiter that fits, again and again, takes `run` off the text
`run ++ rest`. -/
inductive Strips (delimiters : List Text) : (run rest : Text) → Prop
  | done {rest : Text} (closed : ¬ Opens delimiters rest) : Strips delimiters [] rest
  | strip {delimiter run rest : Text}
      (first : FirstFit delimiters (delimiter ++ (run ++ rest)) delimiter)
      (others : Strips delimiters run rest) : Strips delimiters (delimiter ++ run) rest

/-- A word in front of `rest`: no delimiter begins at any of its characters, and it ends
where one begins or where the text does. -/
structure IsWord (delimiters : List Text) (word rest : Text) : Prop where
  nonempty : word ≠ []
  clear : ∀ place < word.length, ¬ Opens delimiters ((word ++ rest).drop place)
  ended : rest = [] ∨ Opens delimiters rest

variable {delimiters : List Text} {text run run' rest rest' word word' lead : Text}
  {leads leads' : List Text}

theorem not_opens_nil : ¬ Opens delimiters [] := by
  rintro ⟨delimiter, _, nonempty, fits⟩
  exact nonempty (List.prefix_nil.mp fits)

/-! ### Delimiter runs -/

theorem fits_iff {delimiter : Text} :
    (!delimiter.isEmpty && delimiter.isPrefixOf text) = true ↔ Fits delimiter text := by
  simp [Fits]

theorem delimiter?_eq_some_iff {delimiter : Text} :
    delimiter? delimiters text = some delimiter ↔ FirstFit delimiters text delimiter := by
  rw [delimiter?, List.find?_eq_some_iff_append, fits_iff]
  simp only [Bool.not_eq_true', ← Bool.not_eq_true, fits_iff, FirstFit]

theorem delimiter?_eq_none_iff : delimiter? delimiters text = none ↔ ¬ Opens delimiters text := by
  rw [delimiter?, List.find?_eq_none]
  simp only [fits_iff, Opens, not_exists, not_and]

theorem delimiterRun_of_not_opens (closed : ¬ Opens delimiters text) :
    delimiterRun delimiters text = 0 := by
  rw [← delimiter?_eq_none_iff] at closed
  cases text with
  | nil => rw [delimiterRun]
  | cons letter rest =>
      rw [delimiterRun]
      split
      · rename_i found
        rw [closed] at found
        contradiction
      · rfl

theorem delimiterRun_of_firstFit {delimiter : Text} (first : FirstFit delimiters text delimiter) :
    delimiterRun delimiters text =
      delimiter.length + delimiterRun delimiters (text.drop delimiter.length) := by
  have fits := first.1
  rw [← delimiter?_eq_some_iff] at first
  cases text with
  | nil => exact absurd (List.prefix_nil.mp fits.2) fits.1
  | cons letter rest =>
      rw [delimiterRun]
      split
      · rename_i found
        rw [first] at found
        cases found
        rfl
      · rename_i missing
        rw [first] at missing
        contradiction

theorem Strips.delimiterRun_eq (strips : Strips delimiters run rest) :
    delimiterRun delimiters (run ++ rest) = run.length := by
  induction strips with
  | done closed => exact delimiterRun_of_not_opens closed
  | @strip delimiter run rest first _ ih =>
      rw [List.append_assoc, delimiterRun_of_firstFit first, List.drop_left, ih,
        List.length_append]

/-- Stripping takes the same off whenever it is done. -/
theorem Strips.unique (strips : Strips delimiters run rest) (strips' : Strips delimiters run' rest')
    (same : run ++ rest = run' ++ rest') : run = run' ∧ rest = rest' := by
  apply List.append_inj same
  rw [← strips.delimiterRun_eq, ← strips'.delimiterRun_eq, same]

theorem Strips.closed (strips : Strips delimiters run rest) : ¬ Opens delimiters rest := by
  induction strips with
  | done closed => exact closed
  | strip _ _ ih => exact ih

theorem strips_delimiterRun (delimiters : List Text) (text : Text) :
    Strips delimiters (text.take (delimiterRun delimiters text))
      (text.drop (delimiterRun delimiters text)) := by
  induction text using delimiterRun.induct delimiters with
  | case1 =>
      rw [delimiterRun]
      exact .done not_opens_nil
  | case2 letter rest delimiter found _ ih =>
      have first := delimiter?_eq_some_iff.mp found
      obtain ⟨_, behind, whole⟩ := first.1
      rw [delimiterRun_of_firstFit first]
      rw [← whole] at first ih ⊢
      rw [List.drop_left] at ih ⊢
      rw [List.take_length_add_append, List.drop_length_add_append]
      refine .strip ?_ ih
      rwa [List.take_append_drop]
  | case3 letter rest missing =>
      have closed := delimiter?_eq_none_iff.mp missing
      rw [delimiterRun_of_not_opens closed]
      exact .done closed

/-! ### Words -/

theorem clear_wordLength {place : Nat} (inside : place < wordLength delimiters text) :
    ¬ Opens delimiters (text.drop place) := by
  induction text generalizing place with
  | nil => simp [wordLength] at inside
  | cons letter rest ih =>
      rw [wordLength] at inside
      split at inside
      · omega
      · rename_i missing
        cases place with
        | zero =>
            rw [List.drop_zero, ← delimiter?_eq_none_iff]
            simpa using missing
        | succ place => exact ih (by omega)

theorem ended_wordLength (delimiters : List Text) (text : Text) :
    text.drop (wordLength delimiters text) = [] ∨
      Opens delimiters (text.drop (wordLength delimiters text)) := by
  induction text with
  | nil => exact .inl rfl
  | cons letter rest ih =>
      rw [wordLength]
      split
      · rename_i found
        refine .inr ?_
        by_contra closed
        rw [List.drop_zero, ← delimiter?_eq_none_iff] at closed
        simp [closed] at found
      · exact ih

/-- Where no delimiter begins, a word does. -/
theorem isWord_wordLength {letter : Char} {body : Text}
    (closed : ¬ Opens delimiters (letter :: body)) :
    IsWord delimiters ((letter :: body).take (wordLength delimiters body + 1))
      ((letter :: body).drop (wordLength delimiters body + 1)) where
  nonempty := by simp
  clear place inside := by
    rw [List.take_append_drop]
    cases place with
    | zero => exact closed
    | succ place =>
        have bound := List.length_take_le (wordLength delimiters body + 1) (letter :: body)
        rw [List.drop_succ_cons]
        exact clear_wordLength (by omega)
  ended := ended_wordLength delimiters body

namespace IsWord

theorem opened (isWord : IsWord delimiters word rest) : ¬ Opens delimiters (word ++ rest) :=
  isWord.clear 0 (List.length_pos_iff.mpr isWord.nonempty)

theorem length_le (isWord : IsWord delimiters word rest) (isWord' : IsWord delimiters word' rest')
    (same : word ++ rest = word' ++ rest') : word'.length ≤ word.length := by
  by_contra shorter
  have left : (word' ++ rest').drop word.length = rest := by rw [← same, List.drop_left]
  have clear := isWord'.clear word.length (by omega)
  rw [left] at clear
  rcases isWord.ended with rfl | opens
  · have lengths := congrArg List.length same
    simp only [List.length_append, List.length_nil] at lengths
    omega
  · exact clear opens

theorem unique (isWord : IsWord delimiters word rest) (isWord' : IsWord delimiters word' rest')
    (same : word ++ rest = word' ++ rest') : word = word' ∧ rest = rest' :=
  List.append_inj same
    (Nat.le_antisymm (isWord'.length_le isWord same.symm) (isWord.length_le isWord' same))

end IsWord

/-! ### Word ends -/

/-- The leads that end where the words of `rest` do, which stands behind `lead`. -/
inductive Follows (delimiters : List Text) : (lead rest : Text) → List Text → Prop
  | done {lead rest : Text} (tail : Strips delimiters rest []) : Follows delimiters lead rest []
  | word {lead gap word rest : Text} {leads : List Text} (apart : gap ≠ [])
      (divided : Strips delimiters gap (word ++ rest)) (isWord : IsWord delimiters word rest)
      (others : Follows delimiters (lead ++ (gap ++ word)) rest leads) :
      Follows delimiters lead (gap ++ (word ++ rest)) ((lead ++ (gap ++ word)) :: leads)

/-- The leads of a text that end where its words do; a text that is one delimiter run is
such a lead itself. -/
inductive Enumerates (delimiters : List Text) : (text : Text) → List Text → Prop
  | empty : Enumerates delimiters [] []
  | divider {text : Text} (nonempty : text ≠ []) (whole : Strips delimiters text []) :
      Enumerates delimiters text [text]
  | words {run word rest : Text} {leads : List Text}
      (divided : Strips delimiters run (word ++ rest)) (isWord : IsWord delimiters word rest)
      (others : Follows delimiters (run ++ word) rest leads) :
      Enumerates delimiters (run ++ (word ++ rest)) ((run ++ word) :: leads)

/-- A word ends between `lead` and `rest`. -/
inductive WordEnd (delimiters : List Text) : (lead rest : Text) → Prop
  | first {run word rest : Text} (divided : Strips delimiters run (word ++ rest))
      (isWord : IsWord delimiters word rest) : WordEnd delimiters (run ++ word) rest
  | next {lead gap word rest : Text} (earlier : WordEnd delimiters lead (gap ++ (word ++ rest)))
      (divided : Strips delimiters gap (word ++ rest)) (isWord : IsWord delimiters word rest) :
      WordEnd delimiters (lead ++ (gap ++ word)) rest

/-- The longer lead goes on with a delimiter. -/
def Parted (delimiters : List Text) (lead next : Text) : Prop :=
  ∃ delimiter ∈ delimiters, delimiter ≠ [] ∧ lead ++ delimiter <+: next

theorem Strips.begins (strips : Strips delimiters run rest) (nonempty : run ≠ []) :
    ∃ delimiter ∈ delimiters, Fits delimiter run := by
  cases strips with
  | done closed => exact absurd rfl nonempty
  | @strip delimiter run rest first others =>
      obtain ⟨fits, earlier, later, listed, _⟩ := first
      exact ⟨delimiter, by simp [listed], fits.1, List.prefix_append delimiter run⟩

/-- There is one way to divide a text into a run, a word and what is left. -/
theorem division_unique {gap gap' : Text} (divided : Strips delimiters gap (word ++ rest))
    (isWord : IsWord delimiters word rest) (divided' : Strips delimiters gap' (word' ++ rest'))
    (isWord' : IsWord delimiters word' rest')
    (same : gap ++ (word ++ rest) = gap' ++ (word' ++ rest')) :
    gap = gap' ∧ word = word' ∧ rest = rest' := by
  obtain ⟨gaps, behind⟩ := divided.unique divided' same
  exact ⟨gaps, isWord.unique isWord' behind⟩

/-- And there always is one, unless the text is one delimiter run. -/
theorem exists_division (delimiters : List Text) (text : Text) :
    Strips delimiters text [] ∨ ∃ run word rest, text = run ++ (word ++ rest) ∧
      Strips delimiters run (word ++ rest) ∧ IsWord delimiters word rest := by
  have strips := strips_delimiterRun delimiters text
  have whole := List.take_append_drop (delimiterRun delimiters text) text
  generalize text.take (delimiterRun delimiters text) = run at strips whole
  generalize text.drop (delimiterRun delimiters text) = rest at strips whole
  subst whole
  cases rest with
  | nil => exact .inl (by rwa [List.append_nil])
  | cons letter body =>
      have isWord := isWord_wordLength strips.closed
      have cut := List.take_append_drop (wordLength delimiters body + 1) (letter :: body)
      exact .inr ⟨run, _, _, by rw [cut], by rwa [cut], isWord⟩

theorem exists_follows (lead rest : Text) (ended : rest = [] ∨ Opens delimiters rest) :
    ∃ leads, Follows delimiters lead rest leads := by
  rcases exists_division delimiters rest with tail | ⟨gap, word, behind, whole, divided, isWord⟩
  · exact ⟨[], .done tail⟩
  · have apart : gap ≠ [] := by
      rintro rfl
      rcases ended with rfl | opens
      · simp [isWord.nonempty] at whole
      · rw [whole] at opens
        exact divided.closed opens
    have shorter : behind.length < rest.length := by
      have positive := List.length_pos_iff.mpr isWord.nonempty
      rw [whole]
      simp only [List.length_append]
      omega
    obtain ⟨leads, others⟩ := exists_follows (lead ++ (gap ++ word)) behind isWord.ended
    rw [whole]
    exact ⟨_, .word apart divided isWord others⟩
termination_by rest.length
decreasing_by exact shorter

theorem exists_enumerates (delimiters : List Text) (text : Text) :
    ∃ leads, Enumerates delimiters text leads := by
  rcases exists_division delimiters text with whole | ⟨run, word, rest, rfl, divided, isWord⟩
  · by_cases nonempty : text = []
    · subst nonempty
      exact ⟨[], .empty⟩
    · exact ⟨[text], .divider nonempty whole⟩
  · obtain ⟨leads, others⟩ := exists_follows (run ++ word) rest isWord.ended
    exact ⟨_, .words divided isWord others⟩

namespace Follows

theorem longer (follows : Follows delimiters lead rest leads) :
    (∀ next ∈ leads, lead.length < next.length ∧ next <+: lead ++ rest) ∧
      leads.Pairwise fun next later => next.length < later.length := by
  induction follows with
  | done tail => exact ⟨by simp, .nil⟩
  | @word lead gap word rest leads apart divided isWord others ih =>
      have positive := List.length_pos_iff.mpr isWord.nonempty
      have grows : lead.length < (lead ++ (gap ++ word)).length := by
        simp only [List.length_append]
        omega
      have whole : lead ++ (gap ++ (word ++ rest)) = lead ++ (gap ++ word) ++ rest := by simp
      rw [whole]
      refine ⟨?_, .cons (fun later member => (ih.1 later member).1) ih.2⟩
      intro next member
      rcases List.mem_cons.mp member with rfl | behind
      · exact ⟨grows, List.prefix_append _ rest⟩
      · exact ⟨Nat.lt_trans grows (ih.1 next behind).1, (ih.1 next behind).2⟩

theorem parted (follows : Follows delimiters lead rest leads) :
    (∀ next ∈ leads, Parted delimiters lead next) ∧ leads.Pairwise (Parted delimiters) := by
  induction follows with
  | done tail => exact ⟨by simp, .nil⟩
  | @word lead gap word rest leads apart divided isWord others ih =>
      obtain ⟨delimiter, listed, nonempty, begins⟩ := divided.begins apart
      have front : lead ++ delimiter <+: lead ++ (gap ++ word) :=
        (List.prefix_append_right_inj lead).mpr (begins.trans (List.prefix_append gap word))
      refine ⟨?_, .cons ih.1 ih.2⟩
      intro next member
      rcases List.mem_cons.mp member with rfl | behind
      · exact ⟨delimiter, listed, nonempty, front⟩
      · obtain ⟨other, _, _, further⟩ := ih.1 next behind
        exact ⟨delimiter, listed, nonempty,
          front.trans ((List.prefix_append _ other).trans further)⟩

theorem wordEnd (follows : Follows delimiters lead rest leads)
    (ends : WordEnd delimiters lead rest) :
    ∀ next ∈ leads, ∃ behind, lead ++ rest = next ++ behind ∧
      WordEnd delimiters next behind := by
  induction follows with
  | done tail => simp
  | @word lead gap word rest leads apart divided isWord others ih =>
      have here := ends.next divided isWord
      have whole : lead ++ (gap ++ (word ++ rest)) = lead ++ (gap ++ word) ++ rest := by simp
      rw [whole]
      intro next member
      rcases List.mem_cons.mp member with rfl | behind
      · exact ⟨rest, rfl, here⟩
      · exact ih here next behind

/-- The word behind a listed lead ends at a listed lead. -/
theorem next_mem (follows : Follows delimiters lead rest leads) {front gap behind : Text}
    (among : front = lead ∨ front ∈ leads)
    (cut : lead ++ rest = front ++ (gap ++ (word ++ behind)))
    (divided : Strips delimiters gap (word ++ behind)) (isWord : IsWord delimiters word behind) :
    front ++ (gap ++ word) ∈ leads := by
  induction follows with
  | done tail =>
      rcases among with rfl | listed
      · have same := List.append_cancel_left cut
        obtain ⟨_, none_left⟩ := tail.unique divided (by simpa using same)
        exact absurd (List.append_eq_nil_iff.mp none_left.symm).1 isWord.nonempty
      · contradiction
  | word apart divided' isWord' others ih =>
      rcases among with rfl | listed
      · obtain ⟨rfl, rfl, rfl⟩ :=
          division_unique divided' isWord' divided isWord (List.append_cancel_left cut)
        exact List.mem_cons_self
      · refine List.mem_cons_of_mem _ (ih (List.mem_cons.mp listed) ?_)
        simpa using cut

end Follows

namespace Enumerates

variable {gap : Text}

theorem first_mem (enumerates : Enumerates delimiters text leads)
    (cut : text = gap ++ (word ++ rest)) (divided : Strips delimiters gap (word ++ rest))
    (isWord : IsWord delimiters word rest) : gap ++ word ∈ leads := by
  cases enumerates with
  | empty => simp [isWord.nonempty] at cut
  | divider _ whole =>
      obtain ⟨_, none_left⟩ := whole.unique divided (by simpa using cut)
      exact absurd (List.append_eq_nil_iff.mp none_left.symm).1 isWord.nonempty
  | words divided' isWord' _ =>
      obtain ⟨rfl, rfl, rfl⟩ := division_unique divided' isWord' divided isWord cut
      exact List.mem_cons_self

theorem next_mem (enumerates : Enumerates delimiters text leads) (listed : lead ∈ leads)
    (cut : text = lead ++ (gap ++ (word ++ rest)))
    (divided : Strips delimiters gap (word ++ rest)) (isWord : IsWord delimiters word rest) :
    lead ++ (gap ++ word) ∈ leads := by
  cases enumerates with
  | empty => contradiction
  | divider _ _ =>
      rw [List.mem_singleton.mp listed] at cut
      simp [isWord.nonempty] at cut
  | words _ _ others =>
      refine List.mem_cons_of_mem _ (others.next_mem (List.mem_cons.mp listed) ?_ divided isWord)
      rwa [List.append_assoc]

theorem mem_of_wordEnd (enumerates : Enumerates delimiters text leads)
    (ends : WordEnd delimiters lead rest) (cut : text = lead ++ rest) : lead ∈ leads := by
  induction ends with
  | first divided isWord =>
      exact enumerates.first_mem (by rwa [← List.append_assoc]) divided isWord
  | @next lead gap word rest _ divided isWord ih =>
      have cut : text = lead ++ (gap ++ (word ++ rest)) := by simpa using cut
      exact enumerates.next_mem (ih cut) cut divided isWord

/-- Unless the text is one delimiter run, what is listed is where its words end. -/
theorem mem_iff (enumerates : Enumerates delimiters text leads)
    (several : ¬ Strips delimiters text []) :
    lead ∈ leads ↔ ∃ rest, text = lead ++ rest ∧ WordEnd delimiters lead rest := by
  constructor
  · intro listed
    cases enumerates with
    | empty => contradiction
    | divider _ whole => exact absurd whole several
    | @words run word rest leads divided isWord others =>
        have here := WordEnd.first divided isWord
        rw [← List.append_assoc]
        rcases List.mem_cons.mp listed with rfl | behind
        · exact ⟨rest, rfl, here⟩
        · exact others.wordEnd here lead behind
  · rintro ⟨rest, cut, ends⟩
    exact enumerates.mem_of_wordEnd ends cut

theorem parted (enumerates : Enumerates delimiters text leads) :
    leads.Pairwise (Parted delimiters) := by
  cases enumerates with
  | empty => exact .nil
  | divider _ _ => exact List.pairwise_singleton _ _
  | words _ _ others => exact .cons others.parted.1 others.parted.2

/-- Of two leads that are listed the longer one goes on with a delimiter. -/
theorem parted_of_shorter (enumerates : Enumerates delimiters text leads) {short long : Text}
    (listed : short ∈ leads) (listed' : long ∈ leads) (shorter : short.length < long.length) :
    Parted delimiters short long := by
  have symmetric : Std.Symm fun lead next =>
      Parted delimiters lead next ∨ Parted delimiters next lead := ⟨fun _ _ => Or.symm⟩
  have different : short ≠ long := fun same => by simp [same] at shorter
  have either : leads.Pairwise fun lead next =>
      Parted delimiters lead next ∨ Parted delimiters next lead := enumerates.parted.imp Or.inl
  refine (either.forall listed listed' different).resolve_right ?_
  rintro ⟨delimiter, _, _, front⟩
  have lengths := front.length_le
  simp only [List.length_append] at lengths
  omega

/-- The leads that are listed grow, and none is empty. -/
theorem grow (enumerates : Enumerates delimiters text leads) :
    (∀ lead ∈ leads, lead ≠ [] ∧ lead <+: text) ∧
      leads.Pairwise fun lead next => lead.length < next.length := by
  cases enumerates with
  | empty => exact ⟨by simp, .nil⟩
  | divider nonempty _ => exact ⟨by simpa using nonempty, List.pairwise_singleton _ _⟩
  | @words run word rest leads _ isWord others =>
      obtain ⟨longer, sorted⟩ := others.longer
      refine ⟨?_, .cons (fun later member => (longer later member).1) sorted⟩
      intro lead listed
      rw [← List.append_assoc]
      rcases List.mem_cons.mp listed with rfl | behind
      · exact ⟨by simp [isWord.nonempty], List.prefix_append _ rest⟩
      · obtain ⟨grown, front⟩ := longer lead behind
        exact ⟨List.length_pos_iff.mp (Nat.zero_lt_of_lt grown), front⟩

end Enumerates

/-! ### The ends that the scan lists -/

theorem wordLength_of_clear {tail : Text}
    (clear : ∀ place < tail.length, ¬ Opens delimiters ((tail ++ rest).drop place))
    (ended : rest = [] ∨ Opens delimiters rest) :
    wordLength delimiters (tail ++ rest) = tail.length := by
  induction tail with
  | nil =>
      rcases ended with rfl | opens
      · rfl
      · rw [← not_not (a := Opens delimiters rest), ← delimiter?_eq_none_iff] at opens
        cases rest with
        | nil => rfl
        | cons letter body =>
            rw [List.nil_append, wordLength, if_pos (Option.isSome_iff_ne_none.mpr opens)]
            rfl
  | cons letter tail ih =>
      have closed := clear 0 (by simp)
      rw [List.drop_zero, ← delimiter?_eq_none_iff] at closed
      rw [List.cons_append] at closed ⊢
      rw [wordLength, closed, ih (fun place inside => clear (place + 1) (by simpa using inside))]
      rfl

/-- What the scan lists once the word in front of `rest` is listed. -/
def wordEndsBehind (delimiters : List Text) (offset : Nat) (rest : Text) : List Nat :=
  let run := delimiterRun delimiters rest
  if rest.length ≤ run then [] else wordEndsFrom delimiters (offset + run) (rest.drop run)

theorem wordEndsFrom_word {gap : Text} (offset : Nat)
    (divided : Strips delimiters gap (word ++ rest)) (isWord : IsWord delimiters word rest) :
    wordEndsFrom delimiters offset (gap ++ (word ++ rest)) =
      (offset + (gap ++ word).length) ::
        wordEndsBehind delimiters (offset + (gap ++ word).length) rest := by
  cases word with
  | nil => exact absurd rfl isWord.nonempty
  | cons letter tail =>
      have size : wordLength delimiters (tail ++ rest) = tail.length :=
        wordLength_of_clear (fun place inside => isWord.clear (place + 1) (by simpa using inside))
          isWord.ended
      have wordEnd : gap.length + 1 + tail.length = (gap ++ letter :: tail).length := by
        simp only [List.length_append, List.length_cons]
        omega
      have whole : gap ++ letter :: (tail ++ rest) = (gap ++ letter :: tail) ++ rest := by simp
      -- the scan counts places in the whole text, the division cuts it: `whole` turns one
      -- into the other
      rw [wordEndsFrom, divided.delimiterRun_eq, List.drop_left]
      simp only [List.cons_append, size, wordEnd, whole]
      generalize gap ++ letter :: tail = lead
      simp only [List.drop_left, List.drop_length_add_append, List.length_append,
        Nat.add_le_add_iff_left, Nat.add_assoc, wordEndsBehind]

theorem Follows.map_wordEndsBehind (follows : Follows delimiters lead rest leads) :
    (wordEndsBehind delimiters lead.length rest).map (lead ++ rest).take = leads := by
  induction follows with
  | @done lead rest tail =>
      have run := tail.delimiterRun_eq
      rw [List.append_nil] at run
      simp [wordEndsBehind, run]
  | @word lead gap word rest leads apart divided isWord others ih =>
      have begins := List.length_pos_iff.mpr isWord.nonempty
      have more : ¬ (gap ++ (word ++ rest)).length ≤ gap.length := by
        simp only [List.length_append]
        omega
      have here := wordEndsFrom_word (lead.length + gap.length) (.done isWord.opened) isWord
      have place : lead.length + gap.length + ([] ++ word).length =
          (lead ++ (gap ++ word)).length := by
        simp only [List.length_append, List.length_nil]
        omega
      have whole : lead ++ (gap ++ (word ++ rest)) = lead ++ (gap ++ word) ++ rest := by simp
      rw [place] at here
      rw [wordEndsBehind, divided.delimiterRun_eq]
      rw [if_neg more, List.drop_left, ← List.nil_append (word ++ rest), here, List.nil_append,
        whole, List.map_cons, List.take_left, ih]

theorem Enumerates.wordPrefixes_eq (enumerates : Enumerates delimiters text leads) :
    wordPrefixes delimiters text = leads := by
  cases enumerates with
  | empty => simp [wordPrefixes, wordEnds, wordEndsFrom]
  | divider nonempty whole =>
      have run := whole.delimiterRun_eq
      rw [List.append_nil] at run
      simp [wordPrefixes, wordEnds, wordEndsFrom, run, nonempty]
  | words divided isWord others =>
      rw [wordPrefixes, wordEnds, wordEndsFrom_word 0 divided isWord, Nat.zero_add,
        ← List.append_assoc, List.map_cons, List.take_left, others.map_wordEndsBehind]

end Typeahead.Text
