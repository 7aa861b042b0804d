import Typeahead.Branch.FixedText
import Typeahead.Proofs.Branch.Overlay

namespace Typeahead

/-! What a branch keeps while it is continued.

`Extends` says that a branch is a continuation of another: it reads the same text,
has the same parsers active, only more parts and factors, and only less input. -/

variable {H : Host}

namespace Branch

structure Extends (branch next : Branch H) : Prop where
  given : next.given = branch.given
  stack : next.stack = branch.stack
  parts : branch.parts <+: next.parts
  factors : branch.factors <+: next.factors
  input : next.input <:+ branch.input

/-- Every branch that is answered continues the given one. -/
def Continues (branch : Branch H) (item : Except Error (Branch H)) : Prop :=
  ∀ next, item = .ok next → branch.Extends next

variable {branch middle next : Branch H}

namespace Extends

@[refl] theorem refl (branch : Branch H) : branch.Extends branch where
  given := rfl
  stack := rfl
  parts := List.prefix_rfl
  factors := List.prefix_rfl
  input := List.suffix_rfl

@[trans] theorem trans (first : branch.Extends middle) (second : middle.Extends next) :
    branch.Extends next where
  given := second.given.trans first.given
  stack := second.stack.trans first.stack
  parts := first.parts.trans second.parts
  factors := first.factors.trans second.factors
  input := second.input.trans first.input

/-- Data, copies, contexts and marks are nothing that a branch keeps. -/
theorem silent (given : next.given = branch.given) (stack : next.stack = branch.stack)
    (parts : next.parts = branch.parts) (factors : next.factors = branch.factors)
    (input : next.input = branch.input) : branch.Extends next where
  given := given
  stack := stack
  parts := parts ▸ List.prefix_rfl
  factors := factors ▸ List.prefix_rfl
  input := input ▸ List.suffix_rfl

theorem fork (copied : branch.fork.Results next) : branch.Extends next := by
  obtain ⟨data, rfl⟩ := fork_results copied
  exact silent rfl rfl rfl rfl rfl

theorem finish (branch : Branch H) : branch.Extends branch.finish :=
  silent rfl rfl rfl rfl rfl

theorem withData (branch : Branch H) (data : H.Data) : branch.Extends { branch with data } :=
  silent rfl rfl rfl rfl rfl

theorem withContexts (branch : Branch H) (contexts : Contexts H) :
    branch.Extends { branch with contexts } :=
  silent rfl rfl rfl rfl rfl

/-- A parser that is entered is left again. -/
theorem popStack {name : String} (inside : (branch.pushStack name).Extends next) :
    branch.Extends next.popStack where
  given := inside.given
  stack := by
    change next.stack.dropLast = branch.stack
    rw [inside.stack]
    exact List.dropLast_concat
  parts := inside.parts
  factors := inside.factors
  input := inside.input

theorem withPart (branch : Branch H) (part : Part) : branch.Extends (branch.withPart part) where
  given := rfl
  stack := rfl
  parts := List.prefix_append branch.parts [part]
  factors := List.prefix_rfl
  input := List.suffix_rfl

theorem add {part : Part} (added : branch.add part = .ok next) : branch.Extends next := by
  cases add_eq_ok_iff.mp added with
  | beside nonempty kind => exact withPart branch part
  | @covering spelled rest nonempty kind split alike =>
      have nonempty' : spelled ≠ [] := fun empty => nonempty (alike.eq_nil_iff.mp empty)
      have moved : branch.Extends { branch with consumed := branch.consumed + spelled.byteSize } := by
        refine ⟨rfl, rfl, List.prefix_rfl, List.prefix_rfl, ?_⟩
        rw [(consumed_input nonempty' split).1, split]
        exact List.suffix_append spelled rest
      exact moved.trans (withPart _ part)
  | behind nonempty kind used =>
      have moved : branch.Extends (branch.leaveInput part.content) := by
        have unread := leaveInput_input part.content used
        obtain ⟨pastEnd, same⟩ := branch.leaveInput_eq part.content
        rw [same] at unread ⊢
        exact silent rfl rfl rfl rfl (unread.trans used.symm)
      exact moved.trans (withPart _ part)

theorem addScore {factor : Float} (added : branch.addScore factor = .ok next) :
    branch.Extends next := by
  rw [addScore_eq_ok added]
  exact ⟨rfl, rfl, List.prefix_rfl, List.prefix_append branch.factors [factor], List.suffix_rfl⟩

end Extends

theorem continues_bind {first : Except Error (Branch H)}
    {rest : Branch H → Except Error (Branch H)} (begins : branch.Continues first)
    (goes : ∀ middle, first = .ok middle → middle.Continues (rest middle)) :
    branch.Continues (first >>= rest) := by
  intro next answered
  cases first with
  | error cause => contradiction
  | ok middle => exact (begins middle rfl).trans (goes middle rfl next answered)

theorem continues_add (branch : Branch H) (part : Part) : branch.Continues (branch.add part) :=
  fun _ => Extends.add

theorem continues_addOverlap (branch : Branch H) (marker : Option Marker)
    (overlap : Text.Overlap) : branch.Continues (branch.addOverlap marker overlap) := by
  cases overlap with
  | full matched rest => exact continues_add branch _
  | begun typed suggestion =>
      rw [addOverlap]
      split
      · exact continues_add branch _
      · exact continues_bind (continues_add branch _) fun middle _ => continues_add middle _

end Branch

end Typeahead
