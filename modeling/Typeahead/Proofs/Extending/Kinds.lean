import Typeahead.Proofs.Branch.Extension
import Typeahead.Proofs.Delivery
import Typeahead.Proofs.Keeping
import Typeahead.Proofs.Tame.Grammar

namespace Typeahead

/-! Every parser only extends its branch, and leaves the stack as it found it.

The step of each kind extends its branch when the steps of its children do, since it
keeps the branches that extend a given one.  Nothing is assumed of the branch, so this
also holds of what an owner's definition begins in the middle of a parse. -/

variable {H : Host}

def Step.Extending (step : Step H) : Prop :=
  ∀ branch item, (step branch).Yields item → branch.Continues item

def Parser.Extending (parser : Parser H) : Prop := Step.Extending parser.start

namespace Branch

variable {branch middle next : Branch H} {item carried : Item H}

theorem Extends.continues (first : branch.Extends middle) (continued : middle.Continues item) :
    branch.Continues item :=
  fun next answered => first.trans (continued next answered)

theorem continues_ok (extends_ : branch.Extends next) : branch.Continues (.ok next) := by
  rintro _ ⟨⟩
  exact extends_

theorem continues_error (branch : Branch H) (cause : Error) : branch.Continues (.error cause) := by
  rintro _ ⟨⟩

theorem Continues.carries (continued : branch.Continues item) (carries : item.Carries carried) :
    branch.Continues carried := by
  cases carries with
  | ok next data => exact continues_ok ((continued next rfl).trans (.withData next data))
  | error cause => exact continued

end Branch

theorem Settings.continues_addPlaceholder (settings : Settings H) (text : Text)
    (branch : Branch H) : branch.Continues (settings.addPlaceholder text branch) :=
  Branch.continues_bind (Branch.continues_add branch _) fun shown _ =>
    Branch.continues_ok (.finish shown)

namespace Parser

variable {name : String} {enabled : Bool} {settings : Settings H} {matching : Step H}
  {branch : Branch H}

theorem extending_around (extending : matching.Extending) :
    (Parser.around name enabled settings matching).Extending := by
  intro branch item yielded
  cases yields_around yielded with
  | passed => exact Branch.continues_ok (.refl branch)
  | shown unfinished used => exact settings.continues_addPlaceholder _ branch
  | finished used => exact Branch.continues_ok (.finish branch)
  | @matched head unfinished found =>
      cases head with
      | error cause => exact Branch.continues_error branch cause
      | ok inner => exact Branch.continues_ok (.popStack (extending _ _ found inner rfl))
  | fellBack unfinished used copied =>
      exact (Branch.Extends.fork copied).continues (settings.continues_addPlaceholder _ _)

end Parser

/-! ### Keeping what extends a branch

A step extends every branch exactly when it keeps the branches that extend a given one.
What surrounds a step does not keep them, as another parser is active inside. -/

theorem Step.Extending.keeps {step : Step H} (extending : step.Extending) (root : Branch H) :
    step.Keeps root.Extends :=
  fun branch item before yielded => before.continues (extending branch item yielded)

theorem Step.extending_of_keeps {step : Step H}
    (keeps : ∀ root : Branch H, step.Keeps root.Extends) : step.Extending :=
  fun branch item yielded => keeps branch branch item (.refl branch) yielded

namespace Branch

theorem copied_extends (root : Branch H) : Copied root.Extends :=
  fun _ _ before copied => before.trans (.fork copied)

theorem absorbs_extends (root : Branch H) (marker : Option Marker) :
    Absorbs root.Extends marker where
  copied := root.copied_extends
  part branch _ _ before := before.continues (continues_add branch _)
  factor _ _ before := before.continues fun _ => Extends.addScore
  data branch data before := before.trans (.withData branch data)

end Branch

theorem Repetition.absorbed_extends (repetition : Repetition) (root : Branch H) :
    repetition.Absorbed root.Extends where
  glued branch _ overlap _ before _ := before.continues (branch.continues_addOverlap none overlap)
  held branch _ _ before := before.continues
    (Branch.continues_bind (Branch.continues_add branch _) fun shown _ =>
      Branch.continues_ok (.finish shown))

namespace Defined

variable {defined : Defined H} {settings : Settings H}

theorem extending_step
    (extending : ∀ branch world parser,
      (defined.create branch world).result.parser = .ok parser → parser.Extending) :
    (defined.step settings).Extending := by
  rintro branch item ⟨items, gives, member⟩
  obtain ⟨trace, traced, delivered⟩ := gives_step gives
  obtain ⟨⟨head, values⟩, among, answered⟩ := exists_of_mem_forall₂ delivered member
  refine Branch.Continues.carries ?_ (deliver_results answered)
  have started : (defined.startOn branch).Yields head := by
    refine ⟨_, Action.gives_of_traces traced, ?_⟩
    have inside := List.mem_map_of_mem (f := Prod.fst) among
    rwa [Trace.handed_fst] at inside
  obtain ⟨created, ⟨world, made⟩, begun⟩ := Action.yields_bind started
  split at begun
  · rename_i cause _
    rw [Run.yields_one (Action.yields_pure begun)]
    exact Branch.continues_error branch cause
  · rename_i parser answered
    have contexts := Branch.Extends.withContexts branch created.contexts
    exact contexts.continues (extending branch world parser (made ▸ answered) _ head begun)

end Defined

theorem Literal.extending_build {literal : Literal} {enabled : Bool} {settings : Settings H}
    {parser : Parser H} (built : literal.matcher.build enabled settings = .ok parser) :
    parser.Extending := by
  obtain ⟨_, _, _, rfl⟩ := Matcher.build_eq_ok built
  apply Parser.extending_around
  apply Step.extending_of_keeps
  intro root
  exact Literal.keeps_matcher _ (root.absorbs_extends _)

theorem Kind.extending_build {kind : Kind H} {options : RuleOptions H}
    {children : List (Parser H)} {parser : Parser H} (builtIn : kind.isBuiltIn = true)
    (extending : ∀ child ∈ children, child.Extending)
    (built : kind.build options children = .ok parser) : parser.Extending := by
  obtain ⟨prepared, _, completed, rfl⟩ := Matcher.build_eq_ok built
  apply Parser.extending_around
  apply Step.extending_of_keeps
  intro root
  refine keeps_step builtIn completed root.copied_extends (root.absorbs_extends _)
    (fun repetition _ => repetition.absorbed_extends root) ?_ ?_
  · intro text inner inside
    exact (Literal.extending_build inside).keeps root
  · intro child member
    exact (extending child member).keeps root

end Typeahead
