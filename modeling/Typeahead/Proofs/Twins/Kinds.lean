import Typeahead.Proofs.Plain.Kinds
import Typeahead.Proofs.Twins.Parser

namespace Typeahead

/-! Fixed text, and the kinds that compose parsers, make twins of twins. -/

variable {H : Host} {like : Likeness H} {settings settings' : Settings H}

namespace Literal

variable {literal : Literal} {branch twin : Branch H}

/-- What a literal does to two branches: nothing, or it yields twins with one emission. -/
inductive Reads (like : Likeness H) (settings settings' : Settings H) :
    Action H (Run H (Item H)) → Action H (Run H (Item H)) → Prop
  | nothing : Reads like settings settings' (return .empty) (return .empty)
  | extended {extended extended' : Item H} (emission : Option (Emission H))
      (twins : Item.Twins like extended extended') :
      Reads like settings settings' (settings.yieldExtended extended emission)
        (settings'.yieldExtended extended' emission)

theorem reads_step (cased : literal.caseSensitive = true → like.caseSensitive = true)
    (same : settings.SameForm settings') (twins : branch.Twins like twin) :
    Reads like settings settings' (literal.step settings branch)
      (literal.step settings' twin) := by
  have agrees := Text.overlap?_agrees (twins.input.weaken cased) literal.text
  dsimp only [step]
  generalize Text.overlap? literal.caseSensitive branch.input literal.text = found at agrees ⊢
  generalize Text.overlap? literal.caseSensitive twin.input literal.text = found' at agrees ⊢
  cases agrees with
  | none => exact .nothing
  | some agrees =>
      dsimp only
      rw [same.marker, agrees.isFull]
      exact .extended _ (twins.addOverlap settings'.marker agrees)

theorem reads_fuzzyStep (nonempty : literal.text ≠ [])
    (cased : literal.caseSensitive = true → like.caseSensitive = true)
    (same : settings.SameForm settings') (twins : branch.Twins like twin) :
    Reads like settings settings' (literal.fuzzyStep settings branch)
      (literal.fuzzyStep settings' twin) := by
  dsimp only [fuzzyStep]
  rw [Text.segments?_congr (twins.input.weaken cased) nonempty, same.marker]
  split
  · exact .nothing
  · exact .extended _ (twins.addSegments settings'.marker _)

theorem reads_matcher (nonempty : literal.text ≠ [])
    (cased : literal.caseSensitive = true → like.caseSensitive = true)
    (same : settings.SameForm settings') (twins : branch.Twins like twin) :
    Reads like settings settings' (literal.matcher.step settings branch)
      (literal.matcher.step settings' twin) := by
  dsimp only [matcher]
  split
  · exact reads_fuzzyStep nonempty cased same twins
  · exact reads_step cased same twins

theorem twins_matcher (nonempty : literal.text ≠ [])
    (cased : literal.caseSensitive = true → like.caseSensitive = true)
    (same : settings.Twins like settings') :
    Step.Twins like (literal.matcher.step settings) (literal.matcher.step settings') := by
  intro branch twin twins
  have reads := reads_matcher nonempty cased same.toSameForm twins
  generalize literal.matcher.step settings branch = begun at reads ⊢
  generalize literal.matcher.step settings' twin = begun' at reads ⊢
  cases reads with
  | nothing => exact Action.twins_empty
  | extended emission twins => exact same.yieldExtended twins emission

end Literal

namespace Sequence

theorem twins_level {child child' : Parser H} {live live' : List (Branch H)}
    (children : child.Twins like child') (twins : List.Forall₂ (Branch.Twins like) live live') :
    (level child live).Agree (List.Forall₂ (Item.Twins like)) (level child' live') := by
  induction twins with
  | nil => exact Action.agree_pure .nil
  | cons first _ ih =>
      rw [level, level]
      refine Action.agree_bind (children _ _ first) fun run run' agree => ?_
      refine Action.agree_bind (Run.agree_toList agree) fun items items' found => ?_
      exact Action.agree_map ih fun more more' others => List.rel_append found others

theorem twins_errorsOf {items items' : List (Item H)}
    (twins : List.Forall₂ (Item.Twins like) items items') :
    List.Forall₂ (Error.Twins like) (errorsOf items) (errorsOf items') := by
  refine List.rel_filterMap ?_ twins
  intro item item' twins
  cases twins with
  | ok _ => exact .none
  | error twins => exact .some twins

theorem twins_branchesOf {items items' : List (Item H)}
    (twins : List.Forall₂ (Item.Twins like) items items') :
    List.Forall₂ (Branch.Twins like) (branchesOf items) (branchesOf items') := by
  refine List.rel_filterMap ?_ twins
  intro item item' twins
  cases twins with
  | ok twins => exact .some twins
  | error _ => exact .none

theorem twins_levels {children children' : List (Parser H)} {live live' : List (Branch H)}
    (below : List.Forall₂ (Parser.Twins like) children children')
    (twins : List.Forall₂ (Branch.Twins like) live live') :
    (levels children live).Agree
      (fun left left' => List.Forall₂ (Error.Twins like) left.1 left'.1 ∧
        List.Forall₂ (Branch.Twins like) left.2 left'.2)
      (levels children' live') := by
  -- what a child leaves is live for the next, so the live branches vary with the children
  induction below generalizing live live' with
  | nil => exact Action.agree_pure ⟨.nil, twins⟩
  | cons child _ ih =>
      rw [levels, levels]
      refine Action.agree_bind (twins_level child twins) fun items items' found => ?_
      refine Action.agree_map (ih (twins_branchesOf found)) ?_
      rintro ⟨errors, survivors⟩ ⟨errors', survivors'⟩ ⟨failed, left⟩
      exact ⟨List.rel_append (twins_errorsOf found) failed, left⟩

theorem twins_step (same : settings.Twins like settings') :
    Step.Twins like (Sequence.step settings) (Sequence.step settings') := by
  intro branch twin twins
  refine Action.agree_pure (Run.agree_defer ?_)
  refine Action.agree_map (twins_levels same.children (.cons twins .nil)) ?_
  rintro ⟨errors, survivors⟩ ⟨errors', survivors'⟩ ⟨failed, left⟩
  refine Run.agree_ofList (List.rel_append ?_ ?_)
  · exact List.rel_map (fun _ _ twins => .error twins) failed
  · exact List.rel_map (fun _ _ twins => .ok twins) left

end Sequence

theorem Fork.twins_step (same : settings.Twins like settings') :
    Step.Twins like (Fork.step settings) (Fork.step settings') := by
  intro branch twin twins
  refine Action.agree_pure (Run.agree_concatMap same.children fun child child' children => ?_)
  exact Action.agree_bind twins.fork fun copy copy' copies => children copy copy' copies

theorem Optional.twins_step (same : settings.Twins like settings') :
    Step.Twins like (Optional.step settings) (Optional.step settings') := by
  intro branch twin twins
  refine Action.agree_map twins.fork fun skipped skipped' copies => ?_
  refine Run.agree_cons (.ok copies) (Run.agree_defer ?_)
  have below := same.children
  generalize settings.children = children at below ⊢
  generalize settings'.children = children' at below ⊢
  cases below with
  | nil => exact Action.twins_empty
  | cons child _ => exact child branch twin twins

namespace Pick

theorem twins_chains {unused unused' : List (Parser H)} {branch twin : Branch H}
    (below : List.Forall₂ (Parser.Twins like) unused unused') (twins : branch.Twins like twin)
    (depth : Nat) :
    (chains depth unused branch).Agree (Item.Twins like) (chains depth unused' twin) := by
  -- a chain goes on from any twins, with the children that are left
  induction depth generalizing unused unused' branch twin with
  | zero => exact Run.agree_empty
  | succ depth ih =>
      refine Run.agree_concatMap (selections_related below) ?_
      rintro ⟨child, others⟩ ⟨child', others'⟩ ⟨chosen, rest⟩
      refine Action.agree_bind twins.fork fun copy copy' copies => ?_
      refine Action.agree_map (chosen copy copy' copies) fun run run' agree => ?_
      exact Run.twins_thenExtend agree fun _ _ twins => Action.agree_pure (ih rest twins)

theorem twins_step (pick : Pick) (same : settings.Twins like settings') :
    Step.Twins like (pick.step settings) (pick.step settings') := by
  intro branch twin twins
  dsimp only [step]
  rw [same.children.length_eq]
  have all := twins_chains same.children twins settings'.children.length
  split
  · exact Action.agree_pure all
  · exact Action.agree_pure all
  · exact Action.agree_pure (Run.agree_take all _)

end Pick

namespace Repetition

variable {repetition : Repetition} {child child' : Parser H}

theorem twins_glued {extend extend' : Branch H → Action H (Run H (Item H))}
    (children : child.Twins like child') (further : Step.Twins like extend extend')
    (glue : Text) :
    Step.Twins like (glued child extend · glue) (glued child' extend' · glue) := by
  intro branch twin twins
  have agrees := Text.overlap?_agrees twins.input.insensitive glue
  dsimp only [glued]
  generalize Text.overlap? false branch.input glue = found at agrees ⊢
  generalize Text.overlap? false twin.input glue = found' at agrees ⊢
  cases agrees with
  | none => exact Action.twins_empty
  | @some overlap overlap' agrees =>
      refine Action.agree_bind twins.fork fun copy copy' copies => ?_
      have joins := copies.addOverlap none agrees
      generalize copy.addOverlap none overlap = joined at joins ⊢
      generalize copy'.addOverlap none overlap' = joined' at joins ⊢
      cases joins with
      | error twins => exact Action.twins_one (.error twins)
      | ok joined =>
          dsimp only
          rw [joined.hasKind]
          split
          · exact Action.twins_one (.ok joined)
          · exact Action.agree_map (children _ _ joined) fun run run' agree =>
              Run.twins_thenExtend agree further

theorem twins_extensions (children : child.Twins like child') (remaining : Nat) :
    Step.Twins like (repetition.extensions child remaining)
      (repetition.extensions child' remaining) := by
  induction remaining with
  | zero => exact fun _ _ _ => Action.twins_empty
  | succ allowed ih =>
      cases allowed with
      | zero => exact fun _ _ _ => Action.twins_empty
      | succ remaining =>
          intro branch twin twins
          rw [extensions, extensions, twins.isFinished, twins.hasKind, shownPlaceholder?,
            shownPlaceholder?, twins.wantsPlaceholder]
          split
          · exact Action.twins_empty
          · split
            · exact Action.twins_one ((twins.add _).bind fun _ _ shown => .ok shown.finish)
            · have glues : List.Forall₂ Eq repetition.glue repetition.glue :=
                List.forall₂_same.mpr fun _ _ => rfl
              refine Action.agree_pure (Run.agree_concatMap glues ?_)
              rintro glue _ rfl
              exact twins_glued children ih glue branch twin twins

theorem twins_step (repetition : Repetition) (same : settings.Twins like settings') :
    Step.Twins like (repetition.step settings) (repetition.step settings') := by
  intro branch twin twins
  have below := same.children
  dsimp only [step]
  generalize settings.children = children at below ⊢
  generalize settings'.children = children' at below ⊢
  cases below with
  | nil => exact Action.twins_empty
  | cons child _ =>
      exact Action.agree_map (child branch twin twins) fun run run' agree =>
        Run.twins_thenExtend agree (twins_extensions child repetition.limit)

end Repetition

namespace Kind

/-- Fixed text and the ways of composing it.  The case of a text matters only where
the case of the input does. -/
def isTextual (caseSensitive : Bool) : Kind H → Bool
  | .literal shape => caseSensitive || !shape.caseSensitive
  | .sequence | .fork | .pick _ | .optional | .repetition _ => true
  | _ => false

variable {kind : Kind H} {options options' : RuleOptions H} {children children' : List (Parser H)}
  {parser parser' : Parser H}

theorem check_congr {caseSensitive : Bool} (textual : kind.isTextual caseSensitive = true)
    (length : settings.children.length = settings'.children.length) :
    kind.matcher.check settings = kind.matcher.check settings' := by
  have empty : settings.children.isEmpty = settings'.children.isEmpty := by
    rw [Bool.eq_iff_iff, List.isEmpty_iff_length_eq_zero, List.isEmpty_iff_length_eq_zero, length]
  have required : settings.requireChildren = settings'.requireChildren := by
    funext parser
    rw [Settings.requireChildren, Settings.requireChildren, empty]
  have expected : settings.expectChildren = settings'.expectChildren := by
    funext parser expected
    rw [Settings.expectChildren, Settings.expectChildren, length]
  cases kind with
  | literal shape => rfl
  | sequence => exact congrFun required "sequence"
  | fork => exact congrFun required "fork"
  | pick shape => exact congrFun required "pick"
  | optional => exact congrFun (congrFun expected "optional") 1
  | repetition shape => simp only [matcher, Repetition.matcher, expected]
  | number _ | word _ | freetext _ | whitespace | defined _ | custom _ =>
      simp [isTextual] at textual

theorem exists_build {caseSensitive : Bool} (textual : kind.isTextual caseSensitive = true)
    (length : children.length = children'.length)
    (built : kind.build options children = .ok parser) :
    ∃ parser', kind.build options' children' = .ok parser' := by
  obtain ⟨_, checked, _, _⟩ := Matcher.build_eq_ok built
  have checked' : kind.matcher.check (options'.settings children') = .ok () :=
    (check_congr textual length).symm.trans checked
  rw [build, Matcher.build, checked']
  cases kind with
  | literal _ | sequence | fork | pick _ | optional | repetition _ => exact ⟨_, rfl⟩
  | number _ | word _ | freetext _ | whitespace | defined _ | custom _ =>
      simp [isTextual] at textual

theorem twins_build (textual : kind.isTextual like.caseSensitive = true)
    (same : (options.settings children).Twins like (options'.settings children'))
    (enabled : options.enabled kind = options'.enabled kind)
    (built : kind.build options children = .ok parser)
    (built' : kind.build options' children' = .ok parser') : parser.Twins like parser' := by
  obtain ⟨prepared, checked, completed, rfl⟩ := Matcher.build_eq_ok built
  obtain ⟨prepared', _, completed', rfl⟩ := Matcher.build_eq_ok built'
  rw [enabled]
  cases kind with
  | literal shape =>
      cases completed
      cases completed'
      have cased : shape.caseSensitive = true → like.caseSensitive = true := by
        intro sensitive
        simpa [isTextual, sensitive] using textual
      exact Parser.twins_around same
        (Literal.twins_matcher (Literal.check_eq_ok checked) cased same)
  | sequence =>
      cases completed
      cases completed'
      exact Parser.twins_around same (Sequence.twins_step same)
  | fork =>
      cases completed
      cases completed'
      exact Parser.twins_around same (Fork.twins_step same)
  | pick shape =>
      cases completed
      cases completed'
      exact Parser.twins_around same (shape.twins_step same)
  | optional =>
      cases completed
      cases completed'
      exact Parser.twins_around same (Optional.twins_step same)
  | repetition shape =>
      cases completed
      cases completed'
      exact Parser.twins_around same (shape.twins_step same)
  | number _ | word _ | freetext _ | whitespace | defined _ | custom _ =>
      simp [isTextual] at textual

end Kind

end Typeahead
