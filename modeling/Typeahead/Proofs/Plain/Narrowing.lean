import Typeahead.Grammar
import Typeahead.Proofs.Plain.Kinds

namespace Typeahead

/-! Typing on never adds, changes or reorders an offer. -/

variable {H : Host}

/-- Fixed texts, and the ways of putting them together. -/
def Kind.IsPlain : Kind H → Prop
  | .literal shape => shape.fuzzy = false
  | .word shape => ∃ text, shape.text = some text ∧ text.endsWithSpace = false
  | .sequence | .fork | .optional => True
  | .pick shape => shape.limit = none ∨ shape.limit = some 0
  | _ => False

/-- A plain kind that is always on, holds nothing open and requires nothing. -/
structure RuleOptions.PlainFor (options : RuleOptions H) (kind : Kind H) : Prop where
  isPlain : kind.IsPlain
  enabled : options.enabled kind = true
  placeholder : options.placeholder = none
  requiresInput : options.requiresInput = false

abbrev Rule.Plain (rule : Rule H) : Prop := rule.Every fun kind options => options.PlainFor kind

theorem Literal.realizes_build {literal : Literal} {settings : Settings H} {parser : Parser H}
    (exact : literal.fuzzy = false) (placeholder : settings.placeholder = none)
    (requiresInput : settings.requiresInput = false)
    (built : literal.matcher.build true settings = .ok parser) :
    literal.text ≠ [] ∧ parser.Realizes (.single ⟨literal.text, literal.caseSensitive⟩) := by
  obtain ⟨prepared, checked, completed, rfl⟩ := Matcher.build_eq_ok built
  cases completed
  have nonempty := check_eq_ok checked
  have step : literal.matcher.step settings = literal.step settings := by
    simp [matcher, exact]
  refine ⟨nonempty, Parser.realizes_around placeholder requiresInput ?_⟩
  rw [step]
  exact realizes_step nonempty settings

theorem Word.realizes_build {word : Word} {text : Text} {settings : Settings H} {parser : Parser H}
    (isText : word.text = some text) (unspaced : text.endsWithSpace = false)
    (placeholder : settings.placeholder = none) (requiresInput : settings.requiresInput = false)
    (built : word.matcher.build true settings = .ok parser) : parser.Realizes (.word text) := by
  obtain ⟨prepared, checked, completed, rfl⟩ := Matcher.build_eq_ok built
  simp only [matcher, prepare, isText] at completed
  obtain ⟨inner, made, answered⟩ := Except.bind_eq_ok completed
  cases answered
  obtain ⟨nonempty, realizes⟩ := Literal.realizes_build rfl rfl rfl made
  exact Parser.realizes_around placeholder requiresInput
    (realizes_step nonempty unspaced rfl realizes)

theorem Kind.realizes_build {kind : Kind H} {options : RuleOptions H} {children : List (Parser H)}
    {spellings : List Spelling} {parser : Parser H} (plain : options.PlainFor kind)
    (realize : List.Forall₂ Parser.Realizes children spellings)
    (built : kind.build options children = .ok parser) :
    ∃ spelling, parser.Realizes spelling := by
  obtain ⟨isPlain, enabled, placeholder, requiresInput⟩ := plain
  rw [build] at built
  rw [enabled] at built
  cases kind with
  | literal shape =>
      exact ⟨_, (Literal.realizes_build isPlain placeholder requiresInput built).2⟩
  | word shape =>
      obtain ⟨text, isText, unspaced⟩ := isPlain
      exact ⟨_, Word.realizes_build isText unspaced placeholder requiresInput built⟩
  | sequence =>
      obtain ⟨prepared, _, completed, rfl⟩ := Matcher.build_eq_ok built
      cases completed
      exact ⟨_, Parser.realizes_around placeholder requiresInput (Sequence.realizes_step realize)⟩
  | fork =>
      obtain ⟨prepared, _, completed, rfl⟩ := Matcher.build_eq_ok built
      cases completed
      exact ⟨_, Parser.realizes_around placeholder requiresInput (Fork.realizes_step realize)⟩
  | pick shape =>
      obtain ⟨prepared, _, completed, rfl⟩ := Matcher.build_eq_ok built
      cases completed
      exact ⟨_, Parser.realizes_around placeholder requiresInput
        (Pick.realizes_step isPlain realize)⟩
  | optional =>
      obtain ⟨prepared, checked, completed, rfl⟩ := Matcher.build_eq_ok built
      cases completed
      obtain ⟨child, alone⟩ := List.length_eq_one_iff.mp (Settings.expectChildren_eq_ok checked)
      have single : children = [child] := alone
      subst single
      cases realize with
      | cons realizes _ =>
          exact ⟨_, Parser.realizes_around placeholder requiresInput
            (Optional.realizes_step rfl realizes)⟩
  | number _ | repetition _ | freetext _ | whitespace | defined _ | custom _ =>
      exact isPlain.elim

theorem Rule.Plain.realizes {rule : Rule H} {parser : Parser H} (plain : rule.Plain)
    (built : rule.build = .ok parser) : ∃ spelling, parser.Realizes spelling := by
  refine Every.built (Q := fun _ parser => ∃ spelling, parser.Realizes spelling) ?_ plain built
  intro kind options children parsers parser here below made
  have realize : ∃ spellings, List.Forall₂ Parser.Realizes parsers spellings := by
    clear made
    induction below with
    | nil => exact ⟨[], .nil⟩
    | cons realizes _ ih =>
        obtain ⟨spelling, realizes⟩ := realizes
        obtain ⟨spellings, others⟩ := ih
        exact ⟨spelling :: spellings, .cons realizes others⟩
  obtain ⟨spellings, realize⟩ := realize
  exact Kind.realizes_build here realize made

namespace Grammar

variable {rule : Rule H} {parser : Parser H} {holder : Holder H} {spelling : Spelling}

theorem results_of_lands {items : List (Item H)} {places : List Place}
    (lands : List.Forall₂ Item.Lands items places) :
    ∃ results : List (ParseResult H),
      items.filterMap ({} : ParseOptions).result? = results.map .ok ∧
      results.map (·.spelled) = (places.filter Place.isEnd).map (·.spelled) := by
  induction lands with
  | nil => exact ⟨[], rfl, rfl⟩
  | @cons item place items places landed _ ih =>
      obtain ⟨branch, rfl, here⟩ := landed
      obtain ⟨results, kept, spelled⟩ := ih
      by_cases used : place.isEnd = true
      · have whole : branch.hasInput = false := by
          rw [Branch.hasInput_eq_false_iff, here.left]
          exact List.isEmpty_iff.mp used
        have answered : ({} : ParseOptions).result? (.ok branch) = some (.ok branch.toResult) := by
          simp [ParseOptions.result?, whole]
        refine ⟨branch.toResult :: results, ?_, ?_⟩
        · rw [List.filterMap_cons_some answered, kept, List.map_cons]
        · rw [List.filter_cons_of_pos used, List.map_cons, List.map_cons, spelled]
          exact congrArg (· :: _) here.spelled
      · have lacking : branch.hasInput = true := by
          rw [Branch.hasInput_iff, here.left]
          simpa [Place.isEnd] using used
        have dropped : ({} : ParseOptions).result? (.ok branch) = none := by
          simp [ParseOptions.result?, lacking]
        refine ⟨results, ?_, ?_⟩
        · rw [List.filterMap_cons_none dropped, kept]
        · rw [List.filter_cons_of_neg used, spelled]

/-- A grammar that realizes a spelling answers with what the spelling offers. -/
theorem parseAll_offers (realizes : parser.Realizes spelling) (input : Text) (world : H.World) :
    ∃ results, ((Grammar.parseAll { parser, holder } input {}) world).result = .ok results ∧
      results.map (·.spelled) = spelling.offers input := by
  refine parseAll_of_gives (fun answers gives => ?_) world
  obtain ⟨root, items, rooted, given, rfl⟩ := gives_results gives
  exact results_of_lands (realizes root _ items (.root rooted) given)

/-- The lines that a longer input is answered with are among those for a lead of it,
in the same order and at most as often. -/
theorem narrowing (plain : rule.Plain) (built : rule.build = .ok parser) (holder : Holder H)
    (typed extension : Text) (world later : H.World) :
    ∃ offers fewer,
      ((Grammar.parseAll { parser, holder } typed {}) world).result = .ok offers ∧
      ((Grammar.parseAll { parser, holder } (typed ++ extension) {}) later).result = .ok fewer ∧
      (fewer.map (·.spelled)).Sublist (offers.map (·.spelled)) := by
  obtain ⟨spelling, realizes⟩ := plain.realizes built
  obtain ⟨offers, answered, lines⟩ := parseAll_offers realizes typed world
  obtain ⟨fewer, answered', lines'⟩ := parseAll_offers realizes (typed ++ extension) later
  refine ⟨offers, fewer, answered, answered', ?_⟩
  rw [lines, lines']
  exact spelling.offers_sublist typed extension

/-- A verb, and for some of them a word behind it. -/
def commands : Rule Host.quiet :=
  .node .fork {} [
    .node .sequence {} [
      .node (.literal { text := ['g', 'o'] }) {} [],
      .node (.word { text := some ['h', 'o', 'm', 'e'] }) {} []],
    .node (.literal { text := ['g', 'e', 't'] }) {} [],
    .node .optional {} [.node (.literal { text := ['G', 'o'], caseSensitive := true }) {} []]]

theorem commands_plain : commands.Plain := by
  have leaf : ∀ kind : Kind Host.quiet, kind.IsPlain →
      Rule.Plain (.node kind {} []) := fun kind isPlain =>
    .node ⟨isPlain, rfl, rfl, rfl⟩ (by simp)
  have walk : Rule.Plain (.node .sequence {} [
      .node (.literal { text := ['g', 'o'] }) {} [],
      .node (.word { text := some ['h', 'o', 'm', 'e'] }) {} []] : Rule Host.quiet) := by
    refine .node ⟨trivial, rfl, rfl, rfl⟩ ?_
    intro child member
    simp only [List.mem_cons, List.not_mem_nil, or_false] at member
    rcases member with rfl | rfl
    · exact leaf _ rfl
    · exact leaf _ ⟨_, rfl, rfl⟩
  refine .node ⟨trivial, rfl, rfl, rfl⟩ ?_
  intro child member
  simp only [List.mem_cons, List.not_mem_nil, or_false] at member
  rcases member with rfl | rfl | rfl
  · exact walk
  · exact leaf _ rfl
  · refine .node ⟨trivial, rfl, rfl, rfl⟩ ?_
    intro child member
    rw [List.mem_singleton.mp member]
    exact leaf _ rfl

theorem narrowing_commands : ∃ parser offers fewer,
    commands.build = .ok parser ∧
    ((Grammar.parseAll { parser, holder := .plain () } ['g'] {}) ()).result = .ok offers ∧
    ((Grammar.parseAll { parser, holder := .plain () } (['g'] ++ ['O']) {}) ()).result = .ok fewer ∧
    offers.map (·.spelled) = [['g', 'o', ' ', 'h', 'o', 'm', 'e', ' '], ['g', 'e', 't']] ∧
    fewer.map (·.spelled) = [['g', 'o', ' ', 'h', 'o', 'm', 'e', ' ']] ∧
    (fewer.map (·.spelled)).Sublist (offers.map (·.spelled)) := by
  obtain ⟨parser, built⟩ : ∃ parser, commands.build = .ok parser := ⟨_, rfl⟩
  have lines : commands.build.toOption.all (fun parser =>
      let grammar : Grammar Host.quiet := { parser, holder := .plain () }
      (grammar.parseAll ['g'] {} ()).result.toOption.map (·.map (·.spelled)) =
          some [['g', 'o', ' ', 'h', 'o', 'm', 'e', ' '], ['g', 'e', 't']] ∧
        (grammar.parseAll (['g'] ++ ['O']) {} ()).result.toOption.map (·.map (·.spelled)) =
          some [['g', 'o', ' ', 'h', 'o', 'm', 'e', ' ']]) = true := by
    decide +kernel
  rw [built] at lines
  obtain ⟨first, second⟩ := of_decide_eq_true lines
  obtain ⟨offers, fewer, answered, answered', sublist⟩ :=
    narrowing commands_plain built (.plain ()) ['g'] ['O'] () ()
  rw [answered] at first
  rw [answered'] at second
  exact ⟨parser, offers, fewer, built, answered, answered', Option.some.inj first,
    Option.some.inj second, sublist⟩

end Grammar

end Typeahead
