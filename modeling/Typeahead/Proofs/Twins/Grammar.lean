import Typeahead.Grammar
import Typeahead.Proofs.Twins.Parser

namespace Typeahead

/-! Grammars whose parsers are twins have results that are twins, one by one. -/

variable {H : Host} {like : Likeness H}

structure ParseResult.Twins (like : Likeness H) (result twin : ParseResult H) : Prop where
  parts : result.parts = twin.parts
  score : result.score = twin.score
  data : like.data result.data twin.data
  input : Text.Alike like.caseSensitive result.input twin.input

inductive Answer.Twins (like : Likeness H) :
    Except Error (ParseResult H) → Except Error (ParseResult H) → Prop
  | ok {result twin : ParseResult H} (twins : result.Twins like twin) :
      Twins like (.ok result) (.ok twin)
  | error {cause cause' : Error} (twins : cause.Twins like cause') :
      Twins like (.error cause) (.error cause')

namespace ParseOptions

theorem result?_twins (options : ParseOptions) {item item' : Item H}
    (twins : Item.Twins like item item') :
    Option.Rel (Answer.Twins like) (options.result? item) (options.result? item') := by
  cases twins with
  | error twins => exact .some (.error twins)
  | @ok branch twin twins =>
      rw [result?, result?, twins.hasInput]
      split
      · exact .none
      · have score : branch.score = twin.score := congrArg Score.product twins.factors
        exact .some (.ok ⟨twins.parts, score, twins.data, twins.input⟩)

theorem select_twins (options : ParseOptions) {run run' : Run H (Item H)}
    (agree : run.Agree (Item.Twins like) run') :
    (options.select run).Agree (Answer.Twins like) (options.select run') := by
  have results := Run.agree_filterMap agree fun _ _ twins => options.result?_twins twins
  rw [select, select]
  cases options.maxResults with
  | none => exact results
  | some cap =>
      refine Run.agree_capped results ?_ cap
      intro answer answer' twins
      cases twins <;> rfl

end ParseOptions

theorem Grammar.results_twins {grammar twin : Grammar H} {input input' : Text}
    (holders : grammar.holder.Twins like twin.holder)
    (alike : Text.Alike like.caseSensitive input input')
    (starts : ∀ root root', (Branch.root input grammar.holder).Results root →
      (Branch.root input' twin.holder).Results root' → root.Twins like root' →
      Action.Twins like (grammar.parser.start root) (twin.parser.start root'))
    (options : ParseOptions) :
    (grammar.results input options).Agree (Run.Agree (Answer.Twins like))
      (twin.results input' options) := by
  have begun : Action.Twins like
      (do grammar.parser.start (← Branch.root input grammar.holder))
      (do twin.parser.start (← Branch.root input' twin.holder)) := by
    intro run run' answered answered'
    obtain ⟨root, rooted, started⟩ := Action.results_bind answered
    obtain ⟨root', rooted', started'⟩ := Action.results_bind answered'
    have twins := Branch.Twins.root alike holders root root' rooted rooted'
    exact starts root root' rooted rooted' twins run run' started started'
  simp only [results, ← bind_assoc]
  exact Action.agree_map begun fun run run' agree => options.select_twins agree

end Typeahead
