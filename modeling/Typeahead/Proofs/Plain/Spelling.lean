import Mathlib.Data.List.Basic
import Typeahead.Matcher.Pick
import Typeahead.Proofs.Branch.FixedText

namespace Typeahead

/-! What grammars of fixed texts spell.

Such a grammar has a list of paths, each a row of fixed texts, and the input decides
only along which of them it can be followed.  So the answers to a longer input are
found among those to a shorter one, in the same order. -/

/-- A fixed text and how input is compared with it. -/
structure Piece where
  text : Text
  caseSensitive : Bool

def Piece.space : Piece := ⟨Text.space, true⟩

abbrev Path := List Piece

/-- How far a path was followed: what it spells so far, and the input that is left. -/
structure Place where
  spelled : Text
  left : Text

def Place.isEnd (place : Place) : Bool := place.left.isEmpty

/-- The paths that go on behind a given text. -/
abbrev Spelling := Text → List Path

/-- How a lead of the input overlaps a text: it reaches behind the text as well, or it
ends inside of it. -/
theorem Text.overlap?_lead {caseSensitive : Bool} {typed extension text : Text}
    {overlap : Text.Overlap}
    (found : overlap? caseSensitive (typed ++ extension) text = some overlap) :
    (∃ rest, overlap? caseSensitive typed text = some (.full text rest) ∧
      overlap = .full text (rest ++ extension)) ∨
    ∃ shorter, overlap? caseSensitive typed text = some shorter ∧ shorter.rest = [] := by
  cases overlap with
  | full matched rest =>
      obtain ⟨rfl, spelled, split, alike⟩ := overlap?_eq_full_iff.mp found
      rcases List.append_eq_append_iff.mp split with ⟨more, rfl, _⟩ | ⟨more, rfl, rfl⟩
      · right
        by_cases empty : more = []
        · subst empty
          rw [List.append_nil] at alike
          exact ⟨.full matched [], overlap?_eq_full_iff.mpr
            ⟨rfl, typed, (List.append_nil typed).symm, alike⟩, rfl⟩
        · obtain ⟨front, back⟩ := alike.symm.cut
          have pending : matched.drop typed.length ≠ [] := fun none_left =>
            empty (back.eq_nil_iff.mp none_left)
          exact ⟨.begun _ _, overlap?_eq_begun_iff.mpr
            ⟨(List.take_append_drop typed.length matched).symm, pending, front⟩, rfl⟩
      · left
        exact ⟨more, overlap?_eq_full_iff.mpr ⟨rfl, spelled, rfl, alike⟩, rfl⟩
  | begun lead suggestion =>
      right
      obtain ⟨split, pending, alike⟩ := overlap?_eq_begun_iff.mp found
      obtain ⟨front, _⟩ := alike.cut
      refine ⟨.begun (lead.take typed.length) (lead.drop typed.length ++ suggestion),
        overlap?_eq_begun_iff.mpr ⟨?_, by simp [pending], front⟩, rfl⟩
      rw [split, ← List.append_assoc, List.take_append_drop]

namespace Path

def text (path : Path) : Text := path.flatMap (·.text)

/-- The place at the end of a path, if the input can be followed along it. -/
def follow? (place : Place) : Path → Option Place
  | [] => some place
  | piece :: path =>
      (Text.overlap? piece.caseSensitive place.left piece.text).bind fun overlap =>
        follow? ⟨place.spelled ++ piece.text, overlap.rest⟩ path

variable {place next : Place} {path : Path}

theorem follow?_single (place : Place) (piece : Piece) :
    follow? place [piece] = (Text.overlap? piece.caseSensitive place.left piece.text).map
      fun overlap => ⟨place.spelled ++ piece.text, overlap.rest⟩ := by
  cases found : Text.overlap? piece.caseSensitive place.left piece.text <;>
    simp [follow?, found]

theorem follow?_append (place : Place) (first second : Path) :
    follow? place (first ++ second) = (follow? place first).bind (follow? · second) := by
  induction first generalizing place with
  | nil => rfl
  | cons piece first ih =>
      rw [List.cons_append, follow?, follow?, Option.bind_assoc]
      congr 1
      funext overlap
      exact ih _

theorem follow?_spelled (followed : follow? place path = some next) :
    next.spelled = place.spelled ++ text path := by
  induction path generalizing place with
  | nil =>
      cases followed
      simp [text]
  | cons piece path ih =>
      obtain ⟨overlap, _, behind⟩ := Option.bind_eq_some_iff.mp followed
      rw [ih behind, List.append_assoc]
      rfl

theorem follow?_used (used : place.left = []) (path : Path) :
    ∃ next, follow? place path = some next ∧ next.left = [] := by
  induction path generalizing place with
  | nil => exact ⟨place, rfl, used⟩
  | cons piece path ih =>
      rw [follow?, used]
      cases text : piece.text with
      | nil =>
          have whole : Text.overlap? piece.caseSensitive [] [] = some (.full [] []) :=
            Text.overlap?_eq_full_iff.mpr ⟨rfl, [], rfl, .nil⟩
          rw [whole]
          exact ih rfl
      | cons letter rest =>
          have begun : Text.overlap? piece.caseSensitive [] (letter :: rest) =
              some (.begun [] (letter :: rest)) :=
            Text.overlap?_eq_begun_iff.mpr ⟨rfl, List.cons_ne_nil _ _, .nil⟩
          rw [begun]
          exact ih rfl

/-- Where all of a longer input can be followed, a lead of it can. -/
theorem follow?_lead {before typed extension : Text}
    (followed : follow? ⟨before, typed ++ extension⟩ path = some next) (used : next.left = []) :
    ∃ next, follow? ⟨before, typed⟩ path = some next ∧ next.left = [] := by
  induction path generalizing before typed with
  | nil =>
      cases followed
      exact ⟨⟨before, typed⟩, rfl, (List.append_eq_nil_iff.mp used).1⟩
  | cons piece path ih =>
      obtain ⟨overlap, found, behind⟩ := Option.bind_eq_some_iff.mp followed
      rcases Text.overlap?_lead found with ⟨rest, full, rfl⟩ | ⟨shorter, ended, nothing⟩
      · rw [follow?, full]
        exact ih behind
      · rw [follow?, ended]
        exact follow?_used nothing path

def completes (input : Text) (path : Path) : Bool :=
  (follow? ⟨[], input⟩ path).any Place.isEnd

theorem completes_lead {typed extension : Text}
    (complete : completes (typed ++ extension) path = true) : completes typed path = true := by
  obtain ⟨next, followed, used⟩ := (Option.any_eq_true _ _).mp complete
  obtain ⟨shorter, followed', used'⟩ := follow?_lead followed (List.isEmpty_iff.mp used)
  exact (Option.any_eq_true _ _).mpr ⟨shorter, followed', List.isEmpty_iff.mpr used'⟩

end Path

namespace Spelling

/-- Where the input leads to along the paths. -/
def reach (spelling : Spelling) (place : Place) : List Place :=
  (spelling place.spelled).filterMap (Path.follow? place)

def stop : Spelling := fun _ => [[]]

def single (piece : Piece) : Spelling := fun _ => [[piece]]

def andThen (first second : Spelling) : Spelling := fun before =>
  (first before).flatMap fun path => (second (before ++ Path.text path)).map (path ++ ·)

def fork (spellings : List Spelling) : Spelling := fun before =>
  spellings.flatMap (· before)

/-- Nothing more, or what the spelling says. -/
def orStop (spelling : Spelling) : Spelling := fun before => [] :: spelling before

def sequence : List Spelling → Spelling
  | [] => stop
  | first :: others => first.andThen (sequence others)

/-- Up to `depth` of the spellings that are unused, in any order. -/
def pick : Nat → List Spelling → Spelling
  | 0, _ => fun _ => []
  | depth + 1, unused => fork ((Pick.selections unused).map fun (chosen, others) =>
      chosen.andThen (orStop (pick depth others)))

/-- The separator in front of a word, which is left out where there is one. -/
def opening (before : Text) : Path :=
  if before.isEmpty || before.endsWithSpace then [] else [Piece.space]

def word (text : Text) : Spelling := fun before =>
  [opening before ++ ([⟨text, false⟩] ++ [Piece.space])]

variable {spelling first second : Spelling} {place : Place}

theorem reach_single (piece : Piece) :
    (single piece).reach place = (Path.follow? place [piece]).toList := by
  cases followed : Path.follow? place [piece] <;> simp [reach, single, followed]

theorem reach_orStop : (orStop spelling).reach place = place :: spelling.reach place := rfl

theorem reach_word (text : Text) :
    (word text).reach place = ((Path.follow? place (opening place.spelled)).bind fun opened =>
      (Path.follow? opened [⟨text, false⟩]).bind (Path.follow? · [Piece.space])).toList := by
  have whole : (fun opened => Path.follow? opened ([⟨text, false⟩] ++ [Piece.space])) =
      fun opened => (Path.follow? opened [⟨text, false⟩]).bind (Path.follow? · [Piece.space]) :=
    funext fun opened => Path.follow?_append opened _ _
  rw [← whole, ← Path.follow?_append]
  cases followed : Path.follow? place
      (opening place.spelled ++ ([⟨text, false⟩] ++ [Piece.space])) <;>
    simp only [reach, word, List.filterMap_cons, List.filterMap_nil, followed, Option.toList]

theorem reach_fork (spellings : List Spelling) :
    (fork spellings).reach place = (spellings.map (·.reach place)).flatten := by
  unfold reach fork
  rw [List.filterMap_flatMap, List.flatMap_def]

theorem reach_andThen :
    (first.andThen second).reach place = (first.reach place).flatMap second.reach := by
  unfold andThen
  rw [reach, List.filterMap_flatMap, reach]
  induction first place.spelled with
  | nil => rfl
  | cons path paths ih =>
      rw [List.flatMap_cons, ih, List.filterMap_map]
      -- a path that cannot be followed takes all that would go on from it along
      cases followed : Path.follow? place path with
      | none =>
          have dead : (Path.follow? place ∘ fun more => path ++ more) = fun _ => none := by
            funext more
            simp [Path.follow?_append, followed]
          rw [List.filterMap_cons_none followed, dead]
          simp
      | some next =>
          have further : (Path.follow? place ∘ fun more => path ++ more) = Path.follow? next := by
            funext more
            simp [Path.follow?_append, followed]
          rw [List.filterMap_cons_some followed, List.flatMap_cons, further, reach,
            Path.follow?_spelled followed]

/-- What the paths spell that all of the input can be followed along. -/
def offers (spelling : Spelling) (input : Text) : List Text :=
  ((spelling.reach ⟨[], input⟩).filter Place.isEnd).map (·.spelled)

theorem offers_eq (spelling : Spelling) (input : Text) :
    spelling.offers input = ((spelling []).filter (Path.completes input)).map Path.text := by
  rw [offers, reach]
  induction spelling [] with
  | nil => rfl
  | cons path paths ih =>
      cases followed : Path.follow? ⟨[], input⟩ path with
      | none =>
          have incomplete : Path.completes input path = false := by
            simp [Path.completes, followed]
          rw [List.filterMap_cons_none followed, List.filter_cons_of_neg (by simp [incomplete]), ih]
      | some next =>
          have spelled : next.spelled = Path.text path := Path.follow?_spelled followed
          rw [List.filterMap_cons_some followed]
          by_cases used : next.isEnd = true
          · have complete : Path.completes input path = true := by
              simp [Path.completes, followed, used]
            rw [List.filter_cons_of_pos used, List.filter_cons_of_pos complete, List.map_cons,
              List.map_cons, ih, spelled]
          · have incomplete : ¬ Path.completes input path = true := by
              simpa [Path.completes, followed] using used
            rw [List.filter_cons_of_neg used, List.filter_cons_of_neg incomplete, ih]

/-- More input leaves fewer offers, and those that are left as they are. -/
theorem offers_sublist (spelling : Spelling) (typed extension : Text) :
    (spelling.offers (typed ++ extension)).Sublist (spelling.offers typed) := by
  rw [offers_eq, offers_eq]
  refine List.Sublist.map Path.text (List.monotone_filter_right _ ?_)
  intro path
  exact Path.completes_lead

end Spelling

end Typeahead
