import Typeahead.Proofs.Rule
import Typeahead.Proofs.Twins.Branch
import Typeahead.Rule

namespace Typeahead

/-! Parsers that continue twins by twins.

Two parsers are twins when from any twins they give lists of the same length whose
members are twins, place by place.  What surrounds the matching of a parser asks
nothing of a branch that its twin would answer in another way. -/

variable {H : Host} {like : Likeness H}

/-- Two ways to go on that lead to twins. -/
abbrev Action.Twins (like : Likeness H) (begin begin' : Action H (Run H (Item H))) : Prop :=
  begin.Agree (Run.Agree (Item.Twins like)) begin'

def Step.Twins (like : Likeness H) (step step' : Step H) : Prop :=
  ∀ branch twin, branch.Twins like twin → Action.Twins like (step branch) (step' twin)

def Parser.Twins (like : Likeness H) (parser twin : Parser H) : Prop :=
  Step.Twins like parser.start twin.start

/-- Settings that differ in children and callbacks only. -/
structure Settings.SameForm (settings twin : Settings H) : Prop where
  marker : settings.marker = twin.marker
  placeholder : settings.placeholder = twin.placeholder
  requiresInput : settings.requiresInput = twin.requiresInput

structure Settings.Twins (like : Likeness H) (settings twin : Settings H) : Prop
    extends Settings.SameForm settings twin where
  children : List.Forall₂ (Parser.Twins like) settings.children twin.children
  emit : ∀ emission branch branch', branch.Twins like branch' →
    (settings.emit branch emission).Agree (Branch.Twins like) (twin.emit branch' emission)

theorem Action.twins_one {item item' : Item H} (twins : Item.Twins like item item') :
    Action.Twins like (return .one item) (return .one item') :=
  Action.agree_pure (Run.agree_one twins)

theorem Action.twins_empty : Action.Twins like (return .empty) (return .empty) :=
  Action.agree_pure Run.agree_empty

namespace Settings.SameForm

variable {settings settings' : Settings H} {branch twin : Branch H}

theorem course (same : settings.SameForm settings') (twins : branch.Twins like twin)
    (enabled : Bool) : settings.course enabled branch = settings'.course enabled twin := by
  have onInput : settings.courseOnInput branch = settings'.courseOnInput twin := by
    rw [courseOnInput, courseOnInput, same.requiresInput, twins.hasInput]
  rw [Settings.course, Settings.course, twins.isFinished, same.placeholder, onInput]
  split
  · rfl
  · split
    · rw [twins.wantsPlaceholder]
    · rfl

theorem addPlaceholder (same : settings.SameForm settings') (twins : branch.Twins like twin)
    (text : Text) :
    Item.Twins like (settings.addPlaceholder text branch) (settings'.addPlaceholder text twin) := by
  rw [Settings.addPlaceholder, Settings.addPlaceholder, same.marker]
  exact (twins.add _).bind fun _ _ shown => .ok shown.finish

theorem fallback (same : settings.SameForm settings') (twins : branch.Twins like twin) :
    (settings.fallback branch).Agree (Option.Rel (Item.Twins like)) (settings'.fallback twin) := by
  rw [Settings.fallback, Settings.fallback, same.placeholder]
  split
  · rw [twins.hasInput]
    split
    · exact Action.agree_pure .none
    · exact Action.agree_map twins.fork fun _ _ copies => .some (same.addPlaceholder copies _)
  · exact Action.agree_pure .none

end Settings.SameForm

theorem Settings.Twins.yieldExtended {settings settings' : Settings H}
    (same : settings.Twins like settings') {extended extended' : Item H}
    (twins : Item.Twins like extended extended') (emission : Option (Emission H)) :
    Action.Twins like (settings.yieldExtended extended emission)
      (settings'.yieldExtended extended' emission) := by
  cases twins with
  | error twins => exact Action.twins_one (.error twins)
  | ok twins =>
      cases emission with
      | none => exact Action.twins_one (.ok twins)
      | some emission =>
          exact Action.agree_map (same.emit emission _ _ twins) fun _ _ emitted =>
            Run.agree_one (.ok emitted)

/-- Whatever the owner does with a branch that it is told of, the branch is the same. -/
theorem Settings.leave_twins (settings settings' : Settings H) {item item' : Item H}
    (twins : Item.Twins like item item') :
    (settings.leave item).Agree (Item.Twins like) (settings'.leave item') := by
  cases twins with
  | error twins => exact Action.agree_pure (.error twins)
  | @ok branch twin twins =>
      have told : (settings.onYield branch.popStack).Agree (fun _ _ => True)
          (settings'.onYield twin.popStack) := fun _ _ _ _ => trivial
      exact Action.agree_bind told fun _ _ _ => Action.agree_pure (.ok twins.popStack)

theorem Parser.twins_around {name : String} {enabled : Bool} {settings settings' : Settings H}
    {matching matching' : Step H} (same : settings.Twins like settings')
    (steps : Step.Twins like matching matching') :
    (Parser.around name enabled settings matching).Twins like
      (Parser.around name enabled settings' matching') := by
  intro branch twin twins
  dsimp only [around]
  rw [same.course twins enabled]
  split
  · exact Action.twins_one (.ok twins)
  · exact Action.twins_one (same.addPlaceholder twins _)
  · exact Action.twins_one (.ok twins.finish)
  · refine Action.agree_bind (same.fallback twins) fun fallback fallback' shown => ?_
    refine Action.agree_bind (steps _ _ (twins.pushStack name)) fun run run' matched => ?_
    have left := Run.agree_mapAction matched fun _ _ => Settings.leave_twins settings settings'
    exact Action.agree_pure (Run.agree_orElse left shown)

theorem Run.twins_thenExtend {extend extend' : Branch H → Action H (Run H (Item H))}
    {run run' : Run H (Item H)} (agree : run.Agree (Item.Twins like) run')
    (further : Step.Twins like extend extend') :
    (run.thenExtend extend).Agree (Item.Twins like) (run'.thenExtend extend') := by
  refine Run.agree_flatMap agree fun item item' twins => ?_
  cases twins with
  | error twins => exact Action.twins_one (.error twins)
  | ok twins =>
      exact Action.agree_map twins.fork fun copy copy' copies =>
        Run.agree_cons (.ok twins) (Run.agree_defer (further copy copy' copies))

end Typeahead
