import Typeahead.Proofs.Tame.Grammar
import Typeahead.Proofs.Twins.Kinds
import Typeahead.Proofs.Twins.Steady

namespace Typeahead

/-! Twins over one and the same input.

Where the inputs of twins are equal also in case, the kinds that look at single
characters of it make twins of them, too.  So every built-in tree whose callbacks are
steady is its own twin. -/

variable {H : Host} {like : Likeness H} {settings settings' : Settings H}

theorem Text.Alike.eq {left right : Text} (alike : Alike true left right) : left = right := by
  have same : List.Forall₂ Eq left right := alike.imp fun letter other agrees => by
    rwa [agree_sensitive, beq_iff_eq] at agrees
  rwa [List.forall₂_eq_eq_eq] at same

namespace Branch.Twins

variable {branch twin : Branch H}

theorem input_eq (twins : branch.Twins like twin) (cased : like.caseSensitive = true) :
    branch.input = twin.input := by
  have alike := twins.input
  rw [cased] at alike
  exact alike.eq

theorem spelled (twins : branch.Twins like twin) : branch.spelled = twin.spelled := by
  rw [Branch.spelled, Branch.spelled, twins.parts]

theorem hasParts (twins : branch.Twins like twin) : branch.hasParts = twin.hasParts := by
  rw [Branch.hasParts, Branch.hasParts, twins.parts]

end Branch.Twins

theorem Whitespace.twins_step (cased : like.caseSensitive = true)
    (same : settings.Twins like settings') :
    Step.Twins like (Whitespace.step settings) (Whitespace.step settings') := by
  intro branch twin twins
  rw [step, step, twins.input_eq cased, same.marker]
  split
  · exact Action.twins_empty
  · exact same.yieldExtended (twins.add _) _

namespace Number

variable {number : Number} {branch twin : Branch H}

theorem twins_readStep (cased : like.caseSensitive = true)
    (same : settings.Twins like settings') :
    Step.Twins like (number.readStep settings) (number.readStep settings') := by
  intro branch twin twins
  rw [readStep, readStep, twins.input_eq cased, same.marker]
  split
  · exact Action.twins_empty
  · split
    · exact same.yieldExtended (twins.add _) _
    · exact Action.twins_empty

theorem twins_offer (same : settings.Twins like settings') (twins : branch.Twins like twin)
    (candidate : Int) :
    Action.Twins like (offer settings branch candidate) (offer settings' twin candidate) := by
  have agrees := Text.overlap?_agrees twins.input.insensitive (Text.ofInt candidate)
  rw [offer, offer, same.marker]
  generalize Text.overlap? false branch.input (Text.ofInt candidate) = found at agrees ⊢
  generalize Text.overlap? false twin.input (Text.ofInt candidate) = found' at agrees ⊢
  cases agrees with
  | none => exact Action.twins_empty
  | some agrees =>
      dsimp only
      rw [agrees.isFull]
      refine Action.agree_bind twins.fork fun copy copy' copies => ?_
      exact same.yieldExtended (copies.addOverlap _ agrees) _

theorem twins_offersFrom (cased : like.caseSensitive = true)
    (same : settings.Twins like settings') (twins : branch.Twins like twin) (count : Nat)
    (candidate : Int) :
    (offersFrom settings branch count candidate).Agree (Item.Twins like)
      (offersFrom settings' twin count candidate) := by
  -- fewer integers are left behind the first one that fits
  induction count using Nat.strongRecOn generalizing candidate with
  | ind count ih =>
      rw [offersFrom_eq, offersFrom_eq, twins.input_eq cased]
      cases found : firstFit? twin.input count candidate with
      | none => exact Run.agree_empty
      | some fits =>
          obtain ⟨behind, fit⟩ := fits
          refine Run.agree_defer ?_
          refine Action.agree_map (twins_offer same twins fit) fun run run' first => ?_
          exact Run.agree_append first (ih behind (firstFit?_lt found) (fit + 1))

theorem twins_matcher (cased : like.caseSensitive = true)
    (same : settings.Twins like settings') :
    Step.Twins like (number.matcher.step settings) (number.matcher.step settings') := by
  dsimp only [matcher]
  split
  · intro branch twin twins
    rw [offerStep, offerStep]
    split
    · exact Action.agree_pure (twins_offersFrom cased same twins _ _)
    · exact Action.twins_empty
  · exact twins_readStep cased same

end Number

namespace Freetext

variable {freetext : Freetext H}

/-- Whether a text is accepted depends on the text alone. -/
def Steady (freetext : Freetext H) : Prop :=
  ∀ filter, freetext.filter = some filter → ∀ text, (filter text).Steady

theorem Steady.accepts (steady : freetext.Steady) (text : Text) :
    (freetext.accepts text).Steady := by
  intro world world'
  rw [Freetext.accepts]
  split
  · rfl
  · cases filter : freetext.filter with
    | none => rfl
    | some filter' => exact steady filter' filter text world world'

theorem twins_step (cased : like.caseSensitive = true) (steady : freetext.Steady)
    (same : settings.Twins like settings') :
    Step.Twins like (freetext.step settings) (freetext.step settings') := by
  intro branch twin twins
  have input := twins.input_eq cased
  rw [step, step, input]
  have ends : List.Forall₂ Eq (Text.wordEnds freetext.delimiters twin.input)
      (Text.wordEnds freetext.delimiters twin.input) := List.forall₂_same.mpr fun _ _ => rfl
  refine Action.agree_pure (Run.agree_concatMap ends ?_)
  rintro length _ rfl
  rw [capture, capture, input, same.marker]
  refine Action.agree_bind (steady.accepts _).agree ?_
  rintro accepted _ rfl
  split
  · refine Action.agree_bind twins.fork fun copy copy' copies => ?_
    have extends_ := (copies.add ⟨twin.input.take length, .input, settings'.marker⟩).bind
      fun _ _ added => added.addScore
        (Score.penalty Score.wordRate (penalised (twin.input.take length)))
    dsimp only
    generalize (copy.add _ >>= _) = extended at extends_ ⊢
    generalize (copy'.add _ >>= _) = extended' at extends_ ⊢
    cases extends_ with
    | error twins => exact Action.twins_one (.error twins)
    | ok twins =>
        exact Action.agree_map (same.emit _ _ _ twins) fun _ _ emitted =>
          Run.agree_one (.ok emitted)
  · exact Action.twins_empty

end Freetext

namespace Word

variable {word : Word} {branch twin : Branch H}

theorem twins_opened? (cased : like.caseSensitive = true) (twins : branch.Twins like twin)
    (marker : Option Marker) :
    Option.Rel (Item.Twins like) (opened? marker branch) (opened? marker twin) := by
  rw [opened?, opened?, twins.hasParts, twins.spelled, twins.input_eq cased, twins.hasInput]
  split
  · exact .some (.ok twins)
  · split
    · exact .some (twins.add _)
    · split
      · exact .none
      · exact .some (twins.add _)

theorem twins_closeItem? (cased : like.caseSensitive = true) {item item' : Item H}
    (twins : Item.Twins like item item') (marker : Option Marker) :
    Option.Rel (Item.Twins like) (closeItem? marker item) (closeItem? marker item') := by
  cases twins with
  | error twins => exact .some (.error twins)
  | @ok branch twin twins =>
      rw [closeItem?, closeItem?, closed?, closed?, twins.input_eq cased, twins.spelled,
        twins.isFinished, twins.hasInput]
      split
      · exact .some (twins.add _)
      · split
        · exact .some (.ok twins)
        · split
          · exact .none
          · exact .some (twins.add _)

theorem twins_step (cased : like.caseSensitive = true) (same : settings.Twins like settings') :
    Step.Twins like (Word.step settings) (Word.step settings') := by
  intro branch twin twins
  have opens := twins_opened? cased twins settings'.marker
  have below := same.children
  rw [step, step, same.marker]
  generalize opened? settings'.marker branch = opened at opens ⊢
  generalize opened? settings'.marker twin = opened' at opens ⊢
  generalize settings.children = children at below ⊢
  generalize settings'.children = children' at below ⊢
  cases opens with
  | none => exact Action.twins_empty
  | some head =>
      cases head with
      | error twins => exact Action.twins_one (.error twins)
      | ok entered =>
          cases below with
          | nil => exact Action.twins_one (.error (.same _))
          | cons child _ =>
              refine Action.agree_map (child _ _ entered) fun run run' agree => ?_
              exact Run.agree_filterMap agree fun _ _ twins => twins_closeItem? cased twins _

/-- A word of text is its own twin with its literal. -/
theorem twins_prepared {settings prepared : Settings H} (same : settings.Twins like settings)
    (completed : word.prepare settings = .ok prepared) : prepared.Twins like prepared := by
  rcases prepare_eq_ok completed with rfl | ⟨text, inner, built, rfl⟩
  · exact same
  · obtain ⟨_, checked, unchanged, rfl⟩ := Matcher.build_eq_ok built
    cases unchanged
    have alone : Settings.Twins like
        { marker := settings.marker, onEmission := settings.onEmission }
        { marker := settings.marker, onEmission := settings.onEmission } :=
      ⟨⟨rfl, rfl, rfl⟩, .nil, same.emit⟩
    have steps := Literal.twins_matcher (Literal.check_eq_ok checked) (by simp) alone
    exact ⟨⟨rfl, rfl, rfl⟩, .cons (Parser.twins_around alone steps) .nil, same.emit⟩

end Word

namespace Kind

variable {kind : Kind H} {options : RuleOptions H} {children : List (Parser H)}
  {parser : Parser H}

/-- The filter that the kind may have is steady. -/
def Steady (kind : Kind H) : Prop := ∀ freetext, kind = .freetext freetext → freetext.Steady

theorem twins_self (builtIn : kind.isBuiltIn = true) (steady : kind.Steady)
    (cased : like.caseSensitive = true)
    (same : (options.settings children).Twins like (options.settings children))
    (built : kind.build options children = .ok parser) : parser.Twins like parser := by
  cases kind with
  | literal _ | sequence | fork | pick _ | optional | repetition _ =>
      exact twins_build (by simp [isTextual, cased]) same rfl built built
  | number shape =>
      obtain ⟨_, _, unchanged, rfl⟩ := Matcher.build_eq_ok built
      cases unchanged
      exact Parser.twins_around same (shape.twins_matcher cased same)
  | word shape =>
      obtain ⟨_, _, completed, rfl⟩ := Matcher.build_eq_ok built
      have prepared := Word.twins_prepared same completed
      exact Parser.twins_around prepared (Word.twins_step cased prepared)
  | freetext shape =>
      obtain ⟨_, _, unchanged, rfl⟩ := Matcher.build_eq_ok built
      cases unchanged
      exact Parser.twins_around same (shape.twins_step cased (steady shape rfl) same)
  | whitespace =>
      obtain ⟨_, _, unchanged, rfl⟩ := Matcher.build_eq_ok built
      cases unchanged
      exact Parser.twins_around same (Whitespace.twins_step cased same)
  | defined _ | custom _ => simp [isBuiltIn] at builtIn

end Kind

namespace Rule

/-- Trees of built-in kinds whose handlers and filters are steady. -/
abbrev Steady (rule : Rule H) : Prop :=
  rule.Every fun kind options => kind.isBuiltIn = true ∧ kind.Steady ∧ options.Steady

theorem Steady.builtIn {rule : Rule H} (steady : rule.Steady) : rule.BuiltIn :=
  steady.mono fun _ _ here => here.1

theorem Steady.twins {rule : Rule H} {parser : Parser H} (steady : rule.Steady)
    (cased : like.caseSensitive = true) (equal : like.data = Eq)
    (built : rule.build = .ok parser) : parser.Twins like parser := by
  have every : rule.Every fun kind options =>
      (kind.isBuiltIn = true ∧ kind.Steady) ∧ options.Steady :=
    steady.mono fun _ _ ⟨builtIn, filters, handlers⟩ => ⟨⟨builtIn, filters⟩, handlers⟩
  apply twins_self equal ?_ every built
  intro kind options children parser ⟨builtIn, filters⟩ same made
  exact Kind.twins_self builtIn filters cased same made

end Rule

end Typeahead
