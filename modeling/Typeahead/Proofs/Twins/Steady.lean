import Typeahead.Proofs.Notes
import Typeahead.Proofs.Run.Yields
import Typeahead.Proofs.Twins.Parser

namespace Typeahead

/-! Callbacks whose answers do not depend on the world.

What a steady callback does besides answering, such as logging, is left open. -/

variable {H : Host}

/-- An action whose answer does not depend on the world. -/
def Action.Steady {α : Type} (action : Action H α) : Prop :=
  ∀ world world', (action world).result = (action world').result

theorem Action.Steady.agree {α : Type} {action : Action H α} (steady : action.Steady) :
    action.Agree Eq action := by
  rintro _ _ ⟨world, rfl⟩ ⟨world', rfl⟩
  exact steady world world'

structure Holder.Steady (holder : Holder H) : Prop where
  init : holder.init.Steady
  copy : ∀ data, (holder.copy data).Steady

/-- Handlers whose answers depend on the emission and the data alone. -/
def RuleOptions.Steady (options : RuleOptions H) : Prop :=
  ∀ handler, options.onEmission = some handler → ∀ emission data, (handler emission data).Steady

theorem RuleOptions.Steady.emit {like : Likeness H} (equal : like.data = Eq)
    {options : RuleOptions H} (steady : options.Steady) (children children' : List (Parser H))
    (emission : Emission H) {branch twin : Branch H} (twins : branch.Twins like twin) :
    ((options.settings children).emit branch emission).Agree (Branch.Twins like)
      ((options.settings children').emit twin emission) := by
  simp only [Settings.emit, RuleOptions.settings]
  have same : branch.data = twin.data := by
    have related := twins.data
    rwa [equal] at related
  cases handled : options.onEmission with
  | none => exact Action.agree_pure twins
  | some handler =>
      dsimp only
      rw [same]
      refine Action.agree_bind (steady handler handled emission twin.data).agree ?_
      rintro answer _ rfl
      cases answer with
      | none => exact Action.agree_pure twins
      | some data => exact Action.agree_pure (twins.withData (by rw [equal]))

theorem gather_steady (emission : Emission Host.notes) (noted : List Text) :
    (gather emission noted).Steady := fun _ _ => rfl

namespace RuleOptions

theorem steady_of_silent {options : RuleOptions H} (unset : options.onEmission = none) :
    options.Steady := by
  intro handler handled
  rw [unset] at handled
  contradiction

theorem steady_of_gather {options : RuleOptions Host.notes}
    (set : options.onEmission = some gather) : options.Steady := by
  intro handler handled
  rw [set] at handled
  cases handled
  exact gather_steady

end RuleOptions

/-- A tree with steady handlers is its own twin if every kind of it makes twins of twins. -/
theorem Rule.twins_self {like : Likeness H} (equal : like.data = Eq) {P : Kind H → Prop}
    (kinds : ∀ kind options children parser, P kind →
      (options.settings children).Twins like (options.settings children) →
      kind.build options children = .ok parser → parser.Twins like parser)
    {rule : Rule H} (every : rule.Every fun kind options => P kind ∧ options.Steady)
    {parser : Parser H} (built : rule.build = .ok parser) : parser.Twins like parser := by
  refine Every.built (Q := fun _ parser => parser.Twins like parser) ?_ every built
  intro kind options children parsers parser ⟨here, steady⟩ below made
  have own : List.Forall₂ (Parser.Twins like) parsers parsers := by
    apply List.forall₂_same.mpr
    intro child member
    obtain ⟨_, _, twins⟩ := exists_of_mem_forall₂ below member
    exact twins
  have same : (options.settings parsers).Twins like (options.settings parsers) :=
    ⟨⟨rfl, rfl, rfl⟩, own, fun emission _ _ twins =>
      steady.emit equal parsers parsers emission twins⟩
  exact kinds kind options parsers parser here same made

end Typeahead
