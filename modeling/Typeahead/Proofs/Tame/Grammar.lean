import Typeahead.Proofs.Tame.Nested

namespace Typeahead

/-! A grammar of built-in kinds does not fail while it parses. -/

variable {H : Host}

namespace Kind

variable {kind : Kind H} {options : RuleOptions H} {children : List (Parser H)} {parser : Parser H}

theorem tame_build (builtIn : kind.isBuiltIn = true) (tame : ∀ child ∈ children, child.Tame)
    (built : kind.build options children = .ok parser) : parser.Tame := by
  have below : (options.settings children).TameChildren := tame
  refine Matcher.tame_build built ?_
  intro prepared checked completed
  cases kind with
  | literal shape => exact Literal.tame_matcher checked prepared
  | number shape => exact Number.tame_matcher prepared
  | word shape =>
      exact Word.tame_step (Word.prepared_nonempty checked completed)
        (Word.tame_prepare completed below)
  | sequence =>
      cases completed
      exact Sequence.tame_step below
  | fork =>
      cases completed
      exact Fork.tame_step below
  | pick shape =>
      cases completed
      exact Pick.tame_step shape below
  | optional =>
      cases completed
      exact Optional.tame_step below
  | repetition shape =>
      cases completed
      exact Repetition.tame_step (Repetition.check_eq_ok checked) below
  | freetext shape => exact Freetext.tame_step shape prepared
  | whitespace => exact Whitespace.tame_step prepared
  | defined shape => simp [isBuiltIn] at builtIn
  | custom shape => simp [isBuiltIn] at builtIn

end Kind

namespace Rule

abbrev BuiltIn (rule : Rule H) : Prop := rule.Every fun kind _ => kind.isBuiltIn = true

theorem BuiltIn.tame {rule : Rule H} {parser : Parser H} (builtIn : rule.BuiltIn)
    (built : rule.build = .ok parser) : parser.Tame := by
  refine Every.built (Q := fun _ parser => parser.Tame) ?_ builtIn built
  intro kind options children parsers parser here below made
  refine Kind.tame_build here ?_ made
  intro child member
  obtain ⟨_, _, tame⟩ := exists_of_mem_forall₂ below member
  exact tame

end Rule

namespace Grammar

variable {rule : Rule H} {parser : Parser H} {holder : Holder H} {input : Text}
  {options : ParseOptions}

/-- What a built-in grammar answers comes from a branch that grew from the root. -/
theorem leads_parse {cursor : Cursor H (Except Error (ParseResult H))}
    {answer : Except Error (ParseResult H)} (builtIn : rule.BuiltIn)
    (built : rule.build = .ok parser)
    (begun : (Grammar.parse { parser, holder } input options).Results cursor)
    (yielded : cursor.Yields answer) :
    ∃ root item, (Branch.root input holder).Results root ∧ (parser.start root).Yields item ∧
      options.result? item = some answer ∧ root.Leads item := by
  obtain ⟨root, item, rooted, found, kept⟩ := yields_parse begun yielded
  have sound : root.Overlaid := by
    obtain ⟨world, rfl⟩ := rooted
    exact Branch.Overlaid.root input holder world
  exact ⟨root, item, rooted, found, kept, builtIn.tame built root item sound found⟩

/-- A pull answers with a result, or with a penalty that is no score factor. -/
theorem parse_result_or_penalty {cursor : Cursor H (Except Error (ParseResult H))}
    {answer : Except Error (ParseResult H)} (builtIn : rule.BuiltIn)
    (built : rule.build = .ok parser)
    (begun : (Grammar.parse { parser, holder } input options).Results cursor)
    (yielded : cursor.Yields answer) :
    (∃ result, answer = .ok result) ∨
      ∃ stack rate count, (rate = Score.skippedRate ∨ rate = Score.wordRate) ∧
        Score.inRange (Score.penalty rate count) = false ∧
        answer = .error (.violated stack (.scoreOutOfRange (Score.penalty rate count))) := by
  obtain ⟨root, item, _, _, kept, leads⟩ := leads_parse builtIn built begun yielded
  cases leads with
  | grown further =>
      simp only [ParseOptions.result?] at kept
      split at kept
      · contradiction
      · exact .inl ⟨_, (Option.some.inj kept).symm⟩
  | fails penalty =>
      cases kept
      cases penalty with
      | outside stack known count refused =>
          exact .inr ⟨stack, _, count, known, refused, rfl⟩

def stroll : Rule Host.quiet :=
  .node .sequence {} [
    .node (.literal { text := ['g', 'o'] }) {} [],
    .node (.word { text := some ['h', 'o', 'm', 'e'] }) {} []]

theorem stroll_builtIn : stroll.BuiltIn := by
  refine .node rfl ?_
  intro child member
  simp only [List.mem_cons, List.not_mem_nil, or_false] at member
  rcases member with rfl | rfl <;> exact .node rfl (by simp)

theorem parse_result_or_penalty_stroll : ∃ parser cursor answer,
    stroll.build = .ok parser ∧
    (Grammar.parse { parser, holder := .plain () } ['g', 'o', ' ', 'h'] {}).Results cursor ∧
    cursor.Yields answer ∧
    ((∃ result, answer = .ok result) ∨
      ∃ stack rate count, (rate = Score.skippedRate ∨ rate = Score.wordRate) ∧
        Score.inRange (Score.penalty rate count) = false ∧
        answer = .error (.violated stack (.scoreOutOfRange (Score.penalty rate count)))) := by
  obtain ⟨parser, built⟩ : ∃ parser, stroll.build = .ok parser := ⟨_, rfl⟩
  have answers : stroll.build.toOption.all (fun parser =>
      (((Grammar.parse { parser, holder := .plain () } ['g', 'o', ' ', 'h'] {}) ()).result.next
        ()).result.1.isSome) = true := by decide +kernel
  rw [built] at answers
  obtain ⟨answer, answered⟩ := Option.isSome_iff_exists.mp answers
  have yielded := Cursor.yields_next answered
  exact ⟨parser, _, answer, built, ⟨(), rfl⟩, yielded,
    parse_result_or_penalty stroll_builtIn built ⟨(), rfl⟩ yielded⟩

end Grammar

end Typeahead
