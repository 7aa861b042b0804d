import Typeahead.Proofs.Rule
import Typeahead.Proofs.Tame.Leaves
import Typeahead.Proofs.Text.Words

namespace Typeahead

/-! What the captures of free text cost.

A longer capture of the same run goes on behind a delimiter.  Its penalty counts the spaces
that it has more, so it ranks lower where every delimiter holds a space. -/

namespace Freetext

variable {H : Host} {freetext : Freetext H} {settings : Settings H} {options : RuleOptions H}
  {branch next : Branch H} {capture : Text}

/-- The branch goes on with a capture. -/
def Captures (marker : Option Marker) (branch : Branch H) (capture : Text) (next : Branch H) :
    Prop :=
  next.parts = branch.parts ++ [{ content := capture, kind := .input, marker }]

/-- The penalty of a capture is the last factor of its branch. -/
def Penalised (branch : Branch H) (capture : Text) (next : Branch H) : Prop :=
  next.factors = branch.factors ++ [Score.penalty Score.wordRate (penalised capture)]

theorem captures_captured {marker : Option Marker}
    (made : captured marker branch capture = .ok next) :
    Captures marker branch capture next ∧ Penalised branch capture next := by
  obtain ⟨added, placed, scored⟩ := Except.bind_eq_ok made
  obtain ⟨consumed, pastEnd, rfl⟩ := Branch.add_eq_ok placed
  rw [Branch.addScore_eq_ok scored]
  exact ⟨rfl, rfl⟩

theorem captures_step (yielded : (freetext.step settings branch).Yields (.ok next)) :
    ∃ capture ∈ Text.wordPrefixes freetext.delimiters branch.input,
      Captures settings.marker branch capture next ∧ Penalised branch capture next := by
  obtain ⟨length, listed, captures⟩ := Run.yields_concatMap (Action.yields_pure yielded)
  obtain ⟨copy, copied, carries⟩ := yields_capture captures
  obtain ⟨data, rfl⟩ := Branch.fork_results copied
  generalize made : captured _ _ _ = scored at carries
  cases carries with
  | ok scored data =>
      have parts := captures_captured made
      exact ⟨_, List.mem_map_of_mem listed, parts⟩

/-- A capture among what is yielded for a branch ends where a word of the input does. -/
theorem listed_of_captures {children : List (Rule H)} {parser : Parser H}
    (built : (Rule.node (.freetext freetext) options children).build = .ok parser)
    (yielded : (parser.start branch).Yields (.ok next))
    (captures : Captures options.marker branch capture next) :
    capture ∈ Text.wordPrefixes freetext.delimiters branch.input ∧
      Penalised branch capture next := by
  obtain ⟨parsers, _, made⟩ := Rule.build_eq_ok built
  obtain ⟨prepared, _, completed, rfl⟩ := Matcher.build_eq_ok made
  cases completed
  -- only what the matching yields ends with a part that was typed
  generalize answer : Except.ok next = item at yielded
  cases Parser.yields_around yielded with
  | passed =>
      cases answer
      simp [Captures] at captures
  | finished used =>
      cases answer
      simp [Captures, Branch.finish] at captures
  | shown unfinished used placeholder =>
      obtain ⟨_, parts⟩ := Settings.addPlaceholder_eq_ok answer.symm
      simp [Captures, parts] at captures
  | fellBack unfinished used copied placeholder =>
      obtain ⟨_, parts⟩ := Settings.addPlaceholder_eq_ok answer.symm
      obtain ⟨data, rfl⟩ := Branch.fork_results copied
      simp [Captures, parts] at captures
  | @matched head unfinished found =>
      cases head with
      | error cause => contradiction
      | ok last =>
          cases answer
          obtain ⟨other, listed, parts, penalised⟩ := captures_step found
          have same := List.append_cancel_left (parts.symm.trans captures)
          simp only [List.cons.injEq, Part.mk.injEq, and_true] at same
          rw [← same.1]
          exact ⟨listed, penalised⟩

theorem penalised_append (short gap : Text) :
    penalised (short ++ gap) = penalised short + gap.count ' ' := by
  simp only [penalised, Text.spacedPieces, List.count_append]
  omega

/-- Of two captures of one run the longer one goes on behind a delimiter, and its exponent is
larger by the spaces that it has more: so it ranks lower if every delimiter holds a space. -/
theorem captures_rank {children : List (Rule H)} {parser : Parser H} {items : List (Item H)}
    {first second : Branch H} {short long : Text}
    (built : (Rule.node (.freetext freetext) options children).build = .ok parser)
    (gives : (parser.start branch).Gives items)
    (among : .ok first ∈ items) (captures : Captures options.marker branch short first)
    (among' : .ok second ∈ items) (captures' : Captures options.marker branch long second)
    (shorter : short.length < long.length) :
    Penalised branch short first ∧ Penalised branch long second ∧
      ∃ gap, long = short ++ gap ∧
        (∃ delimiter ∈ freetext.delimiters, delimiter ≠ [] ∧ delimiter <+: gap) ∧
        penalised long = penalised short + gap.count ' ' ∧
        ((∀ delimiter ∈ freetext.delimiters, delimiter ≠ [] → ' ' ∈ delimiter) →
          penalised short < penalised long) := by
  obtain ⟨listed, costs⟩ := listed_of_captures built ⟨items, gives, among⟩ captures
  obtain ⟨listed', costs'⟩ := listed_of_captures built ⟨items, gives, among'⟩ captures'
  obtain ⟨leads, enumerates⟩ := Text.exists_enumerates freetext.delimiters branch.input
  rw [enumerates.wordPrefixes_eq] at listed listed'
  obtain ⟨delimiter, known, nonempty, behind, rfl⟩ :=
    enumerates.parted_of_shorter listed listed' shorter
  refine ⟨costs, costs', delimiter ++ behind, by simp, ?_, ?_, fun spaced => ?_⟩
  · exact ⟨delimiter, known, nonempty, List.prefix_append delimiter behind⟩
  · rw [List.append_assoc, penalised_append]
  · have space : 0 < delimiter.count ' ' := List.count_pos_iff.mpr (spaced delimiter known nonempty)
    rw [List.append_assoc, penalised_append, List.count_append]
    omega

/-- The branch that a text is read on. -/
def page (given : Text) : Branch Host.quiet := { given, holder := .plain (), data := () }

/-- Two captures of a text in one run. -/
def CapturesBoth (freetext : Freetext Host.quiet) (given short long : Text) : Prop :=
  ∃ parser items first second,
    (Rule.node (.freetext freetext) {} [] : Rule Host.quiet).build = .ok parser ∧
    (parser.start (page given)).Gives items ∧
    .ok first ∈ items ∧ Captures none (page given) short first ∧
    .ok second ∈ items ∧ Captures none (page given) long second

def shows (capture : Text) (item : Item Host.quiet) : Bool :=
  item.toOption.any (·.parts = [{ content := capture, kind := .input }])

theorem exists_of_shows {items : List (Item Host.quiet)} {given capture : Text}
    (shown : items.any (shows capture) = true) :
    ∃ next, .ok next ∈ items ∧ Captures none (page given) capture next := by
  obtain ⟨item, member, parts⟩ := List.any_eq_true.mp shown
  cases item with
  | error cause => contradiction
  | ok next =>
      have only : next.parts = [{ content := capture, kind := .input }] := of_decide_eq_true parts
      exact ⟨next, member, only⟩

theorem capturesBoth_of_answers {freetext : Freetext Host.quiet} {given short long : Text}
    (answers : (Rule.node (.freetext freetext) {} [] : Rule Host.quiet).build.toOption.any
      (fun parser =>
        let items := ((parser.start (page given) ()).result.toList ()).result
        items.any (shows short) && items.any (shows long)) = true) :
    CapturesBoth freetext given short long := by
  cases built : (Rule.node (.freetext freetext) {} [] : Rule Host.quiet).build with
  | error cause => simp [built, Except.toOption] at answers
  | ok parser =>
      simp only [built, Except.toOption, Option.any_some, Bool.and_eq_true] at answers
      obtain ⟨first, among, captures⟩ := exists_of_shows answers.1
      obtain ⟨second, among', captures'⟩ := exists_of_shows answers.2
      exact ⟨parser, _, first, second, built, Action.gives_toList _ () (), among, captures, among',
        captures'⟩

/-- Free text that ends only where a space does. -/
def spaced : Freetext Host.quiet := { delimiters := [[' ']] }

theorem captures_rank_spaced : ∃ parser items first second,
    (Rule.node (.freetext spaced) {} [] : Rule Host.quiet).build = .ok parser ∧
    (parser.start (page "a,b c".toList)).Gives items ∧
    .ok first ∈ items ∧ Captures none (page "a,b c".toList) "a,b".toList first ∧
    .ok second ∈ items ∧ Captures none (page "a,b c".toList) "a,b c".toList second ∧
    "a,b".toList.length < "a,b c".toList.length ∧
    penalised "a,b".toList < penalised "a,b c".toList := by
  obtain ⟨parser, items, first, second, built, gives, among, captures, among', captures'⟩ :
      CapturesBoth spaced "a,b c".toList "a,b".toList "a,b c".toList :=
    capturesBoth_of_answers (by decide +kernel)
  have shorter : "a,b".toList.length < "a,b c".toList.length := by decide
  obtain ⟨_, _, gap, _, _, _, ranks⟩ :=
    captures_rank built gives among captures among' captures' shorter
  exact ⟨parser, items, first, second, built, gives, among, captures, among', captures', shorter,
    ranks (by decide)⟩

/-- A comma ends a word and is no space: by default both captures cost the same. -/
theorem comma_unranked : CapturesBoth {} "a,b".toList "a".toList "a,b".toList ∧
    "a".toList.length < "a,b".toList.length ∧
    ¬ penalised "a".toList < penalised "a,b".toList :=
  ⟨capturesBoth_of_answers (by decide +kernel), by decide, by decide⟩

end Freetext

end Typeahead
