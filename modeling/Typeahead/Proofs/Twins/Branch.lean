import Typeahead.Branch.FixedText
import Typeahead.Proofs.Branch.Adding
import Typeahead.Proofs.Run.Agreement
import Typeahead.Proofs.Text.Folding

namespace Typeahead

/-! Branches that no rule of branches tells apart.

Two branches are twins when they hold the same parts and factors over inputs that
agree, as far as a likeness asks for it.  What one of them accepts the other accepts,
and it leaves twins again. -/

/-- What is asked of twins besides their parts, scores and position. -/
structure Likeness (H : Host) where
  /-- The inputs are the same also in case. -/
  caseSensitive : Bool
  /-- The same parsers are active. -/
  sameStack : Bool
  data : H.Data → H.Data → Prop

variable {H : Host}

/-- Owners whose data stay related when they are copied. -/
structure Holder.Twins (like : Likeness H) (holder twin : Holder H) : Prop where
  init : holder.init.Agree like.data twin.init
  copy : ∀ data data', like.data data data' →
    (holder.copy data).Agree like.data (twin.copy data')

theorem Holder.twins_plain {like : Likeness H} {data data' : H.Data}
    (related : like.data data data') : (Holder.plain data).Twins like (Holder.plain data') :=
  ⟨Action.agree_pure related, fun _ _ related => Action.agree_pure related⟩

structure Branch.Twins (like : Likeness H) (branch twin : Branch H) : Prop where
  given : Text.Alike like.caseSensitive branch.given twin.given
  holder : branch.holder.Twins like twin.holder
  parts : branch.parts = twin.parts
  factors : branch.factors = twin.factors
  data : like.data branch.data twin.data
  stack : like.sameStack = true → branch.stack = twin.stack
  marked : branch.marked = twin.marked
  ahead : Text.Alike like.caseSensitive branch.ahead twin.ahead
  pastEnd : branch.pastEnd = twin.pastEnd

inductive Violation.Twins (like : Likeness H) : Violation → Violation → Prop
  | same (violation : Violation) : Twins like violation violation
  | diverges {remaining remaining' : Text} (content : Text)
      (alike : Text.Alike like.caseSensitive remaining remaining') :
      Twins like (.diverges remaining content) (.diverges remaining' content)

inductive Error.Twins (like : Likeness H) : Error → Error → Prop
  | same (cause : Error) : Twins like cause cause
  | violated {stack stack' : List String} {violation violation' : Violation}
      (names : like.sameStack = true → stack = stack')
      (violations : Violation.Twins like violation violation') :
      Twins like (.violated stack violation) (.violated stack' violation')

inductive Item.Twins (like : Likeness H) : Item H → Item H → Prop
  | ok {branch twin : Branch H} (twins : branch.Twins like twin) : Twins like (.ok branch) (.ok twin)
  | error {cause cause' : Error} (twins : cause.Twins like cause') :
      Twins like (.error cause) (.error cause')

variable {like : Likeness H}

theorem Item.Twins.bind {first first' : Item H} {next next' : Branch H → Item H}
    (twins : Item.Twins like first first')
    (further : ∀ branch twin, branch.Twins like twin →
      Item.Twins like (next branch) (next' twin)) :
    Item.Twins like (first >>= next) (first' >>= next') := by
  cases twins with
  | ok twins => exact further _ _ twins
  | error twins => exact .error twins

namespace Branch.Twins

variable {branch twin : Branch H}

theorem input (twins : branch.Twins like twin) :
    Text.Alike like.caseSensitive branch.input twin.input := by
  rw [Branch.input, Branch.input, twins.pastEnd]
  split
  · exact .nil
  · exact twins.ahead

theorem hasInput (twins : branch.Twins like twin) : branch.hasInput = twin.hasInput := by
  rw [Bool.eq_iff_iff, hasInput_iff, hasInput_iff, ne_eq, ne_eq, twins.input.eq_nil_iff]

theorem hasKind (twins : branch.Twins like twin) (kind : PartKind) :
    branch.hasKind kind = twin.hasKind kind := by
  rw [Branch.hasKind, Branch.hasKind, twins.parts]

theorem isFinished (twins : branch.Twins like twin) : branch.isFinished = twin.isFinished := by
  rw [Branch.isFinished, Branch.isFinished, twins.marked, twins.hasKind]

theorem wantsPlaceholder (twins : branch.Twins like twin) :
    branch.wantsPlaceholder = twin.wantsPlaceholder := by
  have empty : branch.given.isEmpty = twin.given.isEmpty := by
    rw [Bool.eq_iff_iff, List.isEmpty_iff, List.isEmpty_iff, twins.given.eq_nil_iff]
  rw [Branch.wantsPlaceholder, Branch.wantsPlaceholder, Branch.isTyped, Branch.isTyped, empty,
    twins.hasInput, twins.parts]

theorem violated (twins : branch.Twins like twin) {violation violation' : Violation}
    (violations : Violation.Twins like violation violation') :
    Item.Twins like (.error (branch.violated violation)) (.error (twin.violated violation')) :=
  .error (.violated twins.stack violations)

/-! ### What leaves the parts as they are -/

theorem withData (twins : branch.Twins like twin) {data data' : H.Data}
    (related : like.data data data') :
    Twins like { branch with data } { twin with data := data' } :=
  { twins with data := related }

/-- Where the active parsers do not count, any may be active. -/
theorem withStack (twins : branch.Twins like twin) (loose : like.sameStack = false)
    (stack : List String) : branch.Twins like { twin with stack } :=
  { twins with stack := fun same => absurd same (by simp [loose]) }

theorem pushStack (twins : branch.Twins like twin) (name : String) :
    (branch.pushStack name).Twins like (twin.pushStack name) :=
  { twins with stack := fun same => congrArg (· ++ [name]) (twins.stack same) }

theorem popStack (twins : branch.Twins like twin) : branch.popStack.Twins like twin.popStack :=
  { twins with stack := fun same => congrArg List.dropLast (twins.stack same) }

theorem finish (twins : branch.Twins like twin) : branch.finish.Twins like twin.finish :=
  { twins with marked := rfl }

theorem fork (twins : branch.Twins like twin) : branch.fork.Agree (Twins like) twin.fork :=
  Action.agree_map (twins.holder.copy _ _ twins.data) fun _ _ related =>
    { twins with data := related }

theorem root {given given' : Text} {holder holder' : Holder H}
    (alike : Text.Alike like.caseSensitive given given') (holders : holder.Twins like holder') :
    (Branch.root given holder).Agree (Twins like) (Branch.root given' holder') :=
  Action.agree_map holders.init fun _ _ related =>
    ⟨alike, holders, rfl, rfl, related, fun _ => rfl, rfl,
      by simpa [Branch.ahead] using alike, rfl⟩

/-! ### Extending -/

theorem addScore (twins : branch.Twins like twin) (factor : Float) :
    Item.Twins like (branch.addScore factor) (twin.addScore factor) := by
  rw [Branch.addScore_eq, Branch.addScore_eq]
  split
  · exact .ok { twins with factors := congrArg (· ++ [factor]) twins.factors }
  · exact twins.violated (.same _)

theorem consume (twins : branch.Twins like twin) (content : Text) :
    Item.Twins like ((Call.consume content).extend branch)
      ((Call.consume content).extend twin) := by
  -- branches compare content up to case, whatever the likeness asks for
  have alike := twins.input.insensitive
  cases found : Text.splitLead? false branch.input content with
  | some split =>
      obtain ⟨spelled, rest⟩ := split
      obtain ⟨spelled', rest', found', length⟩ := Text.splitLead?_of_exchange alike found
      rw [Call.extend_of_ok (Call.consume_of_some found),
        Call.extend_of_ok (Call.consume_of_some found')]
      refine .ok { twins with ahead := ?_ }
      -- the same characters are covered, be their sizes as they may
      rw [consumed_ahead (Text.splitLead?_eq_some_iff.mp found).1,
        consumed_ahead (Text.splitLead?_eq_some_iff.mp found').1, length]
      exact twins.ahead.drop _
  | none =>
      cases found' : Text.splitLead? false twin.input content with
      | some split =>
          obtain ⟨_, _, impossible, _⟩ := Text.splitLead?_of_exchange alike.symm found'
          rw [found] at impossible
          contradiction
      | none =>
          rw [Call.extend_of_error (Call.consume_of_none found),
            Call.extend_of_error (Call.consume_of_none found')]
          exact twins.violated (.diverges content twins.input)

theorem leaveInput (twins : branch.Twins like twin) (content : Text) :
    (branch.leaveInput content).Twins like (twin.leaveInput content) := by
  rw [Branch.leaveInput, Branch.leaveInput]
  split
  · exact twins
  · exact { twins with pastEnd := rfl }

theorem advance (twins : branch.Twins like twin) (content : Text) (kind : PartKind) :
    Item.Twins like ((Call.advance content kind).extend branch)
      ((Call.advance content kind).extend twin) := by
  have covers := twins.consume content
  rw [Call.extend, Call.extend] at covers ⊢
  cases kind with
  | input =>
      rw [Call.advance_input, Call.advance_input, twins.hasKind]
      cases twin.hasKind .suggestion with
      | true => exact twins.violated (.same _)
      | false => exact covers
  | whitespace =>
      rw [Call.advance_whitespace, Call.advance_whitespace, twins.hasInput]
      cases twin.hasInput with
      | true => exact covers
      | false => exact .ok { twins with ahead := twins.ahead, pastEnd := rfl }
  | suggestion | placeholder =>
      rw [Call.advance_offered content branch (by simp), Call.advance_offered content twin (by simp),
        twins.hasInput]
      cases twin.hasInput with
      | true => exact twins.violated (.diverges content twins.input)
      | false => exact .ok (twins.leaveInput content)
  | fuzzy => exact .ok twins

theorem add (twins : branch.Twins like twin) (part : Part) :
    Item.Twins like (branch.add part) (twin.add part) := by
  by_cases nonempty : part.content ≠ [] ∨ part.kind = .placeholder
  · rw [add_eq_bind branch nonempty, add_eq_bind twin nonempty]
    refine (twins.advance part.content part.kind).bind fun moved moved' twins => ?_
    exact .ok { twins with parts := congrArg (· ++ [part]) twins.parts }
  · rw [not_or, not_not] at nonempty
    rw [Branch.add, Branch.add, Call.extend_of_error (Call.add_of_empty nonempty.1 nonempty.2),
      Call.extend_of_error (Call.add_of_empty nonempty.1 nonempty.2)]
    exact twins.violated (.same _)

theorem addOverlap (twins : branch.Twins like twin) (marker : Option Marker) {caseSensitive : Bool}
    {overlap overlap' : Text.Overlap} (agrees : overlap.Agrees caseSensitive overlap') :
    Item.Twins like (branch.addOverlap marker overlap) (twin.addOverlap marker overlap') := by
  cases agrees with
  | full behind => exact twins.add _
  | begun typed suggestion =>
      rw [Branch.addOverlap, Branch.addOverlap]
      split
      · exact twins.add _
      · exact (twins.add _).bind fun _ _ begun => begun.add _

theorem addSegment (twins : branch.Twins like twin) (marker : Option Marker)
    (segment : Text.Segment) :
    Item.Twins like (branch.addSegment marker segment) (twin.addSegment marker segment) := by
  rw [Branch.addSegment, Branch.addSegment]
  split
  · exact (twins.addScore _).bind fun _ _ scored => scored.add _
  · exact twins.add _

theorem addSegments (twins : branch.Twins like twin) (marker : Option Marker)
    (segments : List Text.Segment) :
    Item.Twins like (segments.foldlM (Branch.addSegment marker) branch)
      (segments.foldlM (Branch.addSegment marker) twin) := by
  induction segments generalizing branch twin with
  | nil => exact .ok twins
  | cons segment segments ih =>
      rw [List.foldlM_cons, List.foldlM_cons]
      exact (twins.addSegment marker segment).bind fun _ _ twins => ih twins

end Branch.Twins

end Typeahead
