import Typeahead.Proofs.Tame.Grammar
import Typeahead.Proofs.Twins.Grammar
import Typeahead.Proofs.Twins.Kinds
import Typeahead.Proofs.Twins.Steady

namespace Typeahead

/-! Results depend on the input only up to case.

A tree of case-insensitive text is its own twin over any two inputs that agree up to
case, so whatever it answers to one of them it answers to the other. -/

variable {H : Host}

/-- Twins of equal data whose inputs agree up to case. -/
def Likeness.upToCase : Likeness H where
  caseSensitive := false
  sameStack := true
  data := Eq

theorem Holder.Steady.twins {holder : Holder H} (steady : holder.Steady) :
    holder.Twins .upToCase holder := by
  refine ⟨steady.init.agree, ?_⟩
  rintro data _ rfl
  exact (steady.copy data).agree

namespace Rule

/-- Trees of case-insensitive text with steady handlers. -/
abbrev FoldsCase (rule : Rule H) : Prop :=
  rule.Every fun kind options => kind.isTextual false = true ∧ options.Steady

variable {rule : Rule H} {parser : Parser H}

theorem FoldsCase.builtIn (folds : rule.FoldsCase) : rule.BuiltIn := by
  refine folds.mono ?_
  rintro kind options ⟨textual, _⟩
  cases kind <;> simp_all [Kind.isTextual, Kind.isBuiltIn]

theorem FoldsCase.twins (folds : rule.FoldsCase) (built : rule.build = .ok parser) :
    parser.Twins .upToCase parser := by
  apply twins_self rfl ?_ folds built
  intro kind options children parser textual same made
  exact Kind.twins_build textual same rfl made made

end Rule

theorem Error.IsPenalty.eq_of_twins {cause cause' : Error} (penalty : cause.IsPenalty)
    (twins : cause.Twins (.upToCase (H := H)) cause') : cause = cause' := by
  cases penalty with
  | outside stack known count refused =>
      cases twins with
      | same _ => rfl
      | violated names violations =>
          cases violations
          rw [names rfl]

/-- Results that differ at most in the case of the input that is left. -/
structure ParseResult.Agrees (result result' : ParseResult H) : Prop where
  parts : result.parts = result'.parts
  score : result.score = result'.score
  data : result.data = result'.data
  input : Text.Alike false result.input result'.input

inductive Answer.Agrees :
    Except Error (ParseResult H) → Except Error (ParseResult H) → Prop
  | ok {result result' : ParseResult H} (agrees : result.Agrees result') :
      Agrees (.ok result) (.ok result')
  | error (cause : Error) : Agrees (.error cause) (.error cause)

namespace Grammar

variable {rule : Rule H} {parser : Parser H} {holder : Holder H} {input input' : Text}
  {options : ParseOptions}

theorem penalty_of_error {cause : Error} (builtIn : rule.BuiltIn)
    (built : rule.build = .ok parser)
    (yielded : (Grammar.results { parser, holder } input options).Yields (.error cause)) :
    cause.IsPenalty := by
  obtain ⟨root, ⟨world, rooted⟩, rest⟩ := Action.yields_bind yielded
  obtain ⟨run, begun, selected⟩ := Action.yields_bind rest
  obtain ⟨item, found, kept⟩ := yields_select (Action.yields_pure selected)
  have sound : root.Overlaid := rooted ▸ Branch.Overlaid.root input holder world
  have leads := builtIn.tame built root item sound (Action.yields_of_results begun found)
  cases leads with
  | grown further =>
      simp only [ParseOptions.result?] at kept
      split at kept <;> simp at kept
  | fails penalty =>
      cases kept
      exact penalty

/-- Inputs that agree up to case have the same results but for the case of what is
left of them, whatever the owner does between the pulls. -/
theorem results_up_to_case (folds : rule.FoldsCase) (built : rule.build = .ok parser)
    (steady : holder.Steady) (alike : Text.Alike false input input') (options : ParseOptions)
    {answers answers' : List (Except Error (ParseResult H))}
    (gives : (Grammar.results { parser, holder } input options).Gives answers)
    (gives' : (Grammar.results { parser, holder } input' options).Gives answers') :
    List.Forall₂ Answer.Agrees answers answers' := by
  have agree : (Grammar.results { parser, holder } input options).Agree
      (Run.Agree (Answer.Twins .upToCase)) (Grammar.results { parser, holder } input' options) :=
    results_twins steady.twins alike (fun _ _ _ _ twins => folds.twins built _ _ twins) options
  have penalties : ∀ answer ∈ answers, ∀ cause, answer = .error cause → cause.IsPenalty := by
    rintro _ member cause rfl
    exact penalty_of_error folds.builtIn built ⟨answers, gives, member⟩
  -- twins may differ in the input that an error quotes, but a penalty quotes none
  refine ((List.forall₂_and_left answers answers').mpr ⟨penalties, agree.gives gives gives'⟩).imp ?_
  rintro answer answer' ⟨penalty, twins⟩
  cases twins with
  | ok twins => exact .ok ⟨twins.parts, twins.score, twins.data, twins.input⟩
  | @error cause cause' twins =>
      rw [(penalty cause rfl).eq_of_twins twins]
      exact .error cause'

end Grammar

namespace Grammar

/-- Names of scales, joined by commas. -/
def scales : Rule Host.notes :=
  .node (.repetition { glue := [[',']] }) { placeholder := some ['s', 'c', 'a', 'l', 'e'] } [
    .node .fork {} [
      .node (.literal { text := ['R', 'a', 'n', 'k', 'i', 'n', 'e'] })
        { onEmission := some gather } [],
      .node (.literal { text := ['K', 'e', 'l', 'v', 'i', 'n'], fuzzy := true })
        { onEmission := some gather } []]]

theorem scales_foldsCase : scales.FoldsCase := by
  refine .node ⟨rfl, RuleOptions.steady_of_silent rfl⟩ ?_
  intro child member
  rw [List.mem_singleton.mp member]
  refine .node ⟨rfl, RuleOptions.steady_of_silent rfl⟩ ?_
  intro child member
  simp only [List.mem_cons, List.not_mem_nil, or_false] at member
  rcases member with rfl | rfl <;> exact .node ⟨rfl, RuleOptions.steady_of_gather rfl⟩ (by simp)

/-- The sign of kelvin is a letter k in another spelling. -/
theorem results_up_to_case_scales : ∃ parser answers answers',
    scales.build = .ok parser ∧
    Text.Alike false ['r', 'a', 'n', 'k', 'i', 'n', 'e', ',', 'k']
      ['R', 'A', 'N', 'K', 'I', 'N', 'E', ',', '\u212A'] ∧
    (Grammar.results { parser, holder := .plain [] }
      ['r', 'a', 'n', 'k', 'i', 'n', 'e', ',', 'k'] {}).Gives answers ∧
    (Grammar.results { parser, holder := .plain [] }
      ['R', 'A', 'N', 'K', 'I', 'N', 'E', ',', '\u212A'] {}).Gives answers' ∧
    answers.map (·.toOption.map (·.data)) =
      [some [['R', 'a', 'n', 'k', 'i', 'n', 'e'], ['K', 'e', 'l', 'v', 'i', 'n']]] ∧
    List.Forall₂ Answer.Agrees answers answers' := by
  obtain ⟨parser, built⟩ : ∃ parser, scales.build = .ok parser := ⟨_, rfl⟩
  have noted : scales.build.toOption.all (fun parser =>
      let grammar : Grammar Host.notes := { parser, holder := .plain [] }
      let begun := grammar.results ['r', 'a', 'n', 'k', 'i', 'n', 'e', ',', 'k'] {} ()
      (begun.result.toList ()).result.map (·.toOption.map (·.data)) =
        [some [['R', 'a', 'n', 'k', 'i', 'n', 'e'], ['K', 'e', 'l', 'v', 'i', 'n']]]) = true := by
    decide +kernel
  rw [built] at noted
  have alike : Text.Alike false ['r', 'a', 'n', 'k', 'i', 'n', 'e', ',', 'k']
      ['R', 'A', 'N', 'K', 'I', 'N', 'E', ',', '\u212A'] := by
    unfold Text.Alike
    decide +kernel
  have steady : (Holder.plain ([] : List Text) : Holder Host.notes).Steady :=
    ⟨fun _ _ => rfl, fun _ _ _ => rfl⟩
  have gives := fun input => Run.gives_toList
    ((Grammar.results { parser, holder := .plain [] } input {}) ()).result ()
  exact ⟨parser, _, _, built, alike, ⟨_, ⟨(), rfl⟩, gives _⟩, ⟨_, ⟨(), rfl⟩, gives _⟩,
    of_decide_eq_true noted,
    results_up_to_case scales_foldsCase built steady alike {} ⟨_, ⟨(), rfl⟩, gives _⟩
      ⟨_, ⟨(), rfl⟩, gives _⟩⟩

end Grammar

end Typeahead
