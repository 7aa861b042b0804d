import Typeahead.Proofs.Completing

namespace Typeahead

/-! Placeholders instead of dead ends.

On a branch without input a parser with a placeholder always has something to yield: its
placeholder up front, what its matching makes of the branch, or its placeholder where that
is nothing. -/

variable {H : Host}

def Rule.placeholder? : Rule H → Option Text
  | .node _ options _ => options.placeholder

/-- The same settings for a parser that shows no placeholder. -/
def Settings.withoutPlaceholder (settings : Settings H) : Settings H :=
  { settings with placeholder := none }

theorem Run.gives_orElse_none {α : Type} {run : Run H α} {items : List α}
    (gives : run.Gives items) : (run.orElse none).Gives items := by
  obtain ⟨world, given⟩ := gives_iff.mp gives
  apply gives_iff.mpr
  refine ⟨world, ?_⟩
  rw [orElse, pull_suspended]
  cases pulled : run.pull world with
  | ended emitted left =>
      rw [pulled] at given
      exact given
  | item head emitted left rest =>
      rw [pulled] at given
      exact given

namespace Settings

variable {settings : Settings H} {enabled : Bool} {branch : Branch H}

theorem addPlaceholder_eq (settings : Settings H) (text : Text) (used : branch.input = []) :
    ∃ shown, settings.addPlaceholder text branch = .ok shown ∧
      shown.parts = branch.parts ++
        [{ content := text, kind := .placeholder, marker := settings.marker }] := by
  rw [addPlaceholder, Branch.add_behind (.inr rfl) (.inr (.inr rfl)) used]
  refine ⟨_, rfl, ?_⟩
  obtain ⟨pastEnd, same⟩ := branch.leaveInput_eq text
  change ((branch.leaveInput text).withPart _).parts = _
  rw [same, Branch.withPart_parts]

/-- Without its placeholder a parser takes the same course, unless it would show it. -/
theorem course_withoutPlaceholder
    (unshown : ∀ text, settings.course enabled branch ≠ .showPlaceholder text) :
    settings.withoutPlaceholder.course enabled branch = settings.course enabled branch := by
  by_cases off : (branch.isFinished || !enabled) = true
  · rw [course, course, if_pos off, if_pos off]
  · rw [course, course, if_neg off, if_neg off]
    cases placeholder : settings.placeholder with
    | none => rfl
    | some text =>
        by_cases wanted : branch.wantsPlaceholder = true
        · have taken : settings.course enabled branch = .showPlaceholder text := by
            rw [course, if_neg off, placeholder]
            exact if_pos wanted
          exact absurd taken (unshown text)
        · exact (if_neg wanted).symm

end Settings

namespace Parser

variable {name : String} {enabled : Bool} {settings : Settings H} {matching : Step H}
  {branch : Branch H} {items : List (Item H)} {text : Text}

/-- A parser yields what it would yield without its placeholder, or nothing but its own
placeholder on a branch without input. -/
theorem gives_own_placeholder (placeholder : settings.placeholder = some text)
    (gives : ((Parser.around name enabled settings matching).start branch).Gives items) :
    ((Parser.around name enabled settings.withoutPlaceholder matching).start branch).Gives items ∨
      branch.input = [] ∧ ∃ shown, items = [.ok shown] ∧ shown.parts = branch.parts ++
        [{ content := text, kind := .placeholder, marker := settings.marker }] := by
  have same : (∀ text, settings.course enabled branch ≠ .showPlaceholder text) → _ :=
    Settings.course_withoutPlaceholder
  cases taken : settings.course enabled branch with
  | showPlaceholder shown =>
      obtain ⟨known, wanted⟩ := Settings.course_eq_showPlaceholder taken
      cases placeholder.symm.trans known
      have used := Branch.input_of_wantsPlaceholder wanted
      obtain ⟨next, added, parts⟩ := settings.addPlaceholder_eq text used
      dsimp only [around] at gives
      rw [taken] at gives
      have only := Run.gives_one (Action.gives_pure gives)
      exact .inr ⟨used, next, by rw [only, added], parts⟩
  | pass | finish =>
      left
      dsimp only [around] at gives ⊢
      rw [same (by simp [taken]), taken]
      rw [taken] at gives
      exact gives
  | proceed =>
      obtain ⟨run, ⟨world, started⟩, given⟩ := gives
      have copied : (settings.fallback branch).Results (settings.fallback branch world).result :=
        ⟨world, rfl⟩
      rw [start_around name matching taken] at started
      subst started
      rcases Run.gives_orElse given with ⟨inside, _⟩ | ⟨item, _, shown, rfl⟩
      · left
        refine ⟨_, ⟨(settings.fallback branch world).world, rfl⟩, ?_⟩
        rw [start_around name matching ((same (by simp [taken])).trans taken)]
        exact Run.gives_orElse_none inside
      · rcases Settings.fallback_results copied with
          missing | ⟨other, copy, known, used, forked, only⟩
        · simp [missing] at shown
        · cases placeholder.symm.trans known
          obtain ⟨data, rfl⟩ := Branch.fork_results forked
          have left : Branch.input { branch with data, lineage := branch.lineage + 1 } = [] := used
          obtain ⟨next, added, parts⟩ := settings.addPlaceholder_eq text left
          cases only.symm.trans shown
          exact .inr ⟨used, next, by rw [added], parts⟩

/-- On a branch without input a parser with a placeholder yields some branch. -/
theorem goes_on_around (placeholder : settings.placeholder = some text)
    (completes : matching.Completes) (used : branch.input = [])
    (gives : ((Parser.around name enabled settings matching).start branch).Gives items) :
    ∃ next, .ok next ∈ items := by
  have nonempty : items ≠ [] := by
    cases gives_relayed gives with
    | matched unfinished found enough =>
        intro empty
        rcases enough (List.map_eq_nil_iff.mp empty) with unset | left
        · simp [placeholder] at unset
        · exact left used
    | _ => exact List.cons_ne_nil _ _
  obtain ⟨item, member⟩ := List.exists_mem_of_ne_nil items nonempty
  obtain ⟨next, rfl, _⟩ := completes_around completes branch item used ⟨items, gives, member⟩
  exact ⟨next, member⟩

end Parser

namespace Rule

variable {rule : Rule H} {rules : List (Rule H)} {options : RuleOptions H} {parser : Parser H}
  {children : List (Parser H)} {branch : Branch H} {items : List (Item H)}

theorem BuiltIn.completes_children (builtIn : ∀ rule ∈ rules, rule.BuiltIn)
    (builtAll : buildAll rules = .ok children) : ∀ child ∈ children, child.Completes := by
  intro child member
  obtain ⟨rule, among, built⟩ := exists_of_mem_forall₂ (buildAll_eq_ok builtAll) member
  exact (builtIn rule among).completes built

theorem goes_on (builtIn : rule.BuiltIn) (placed : rule.placeholder? ≠ none)
    (built : rule.build = .ok parser) (used : branch.input = [])
    (gives : (parser.start branch).Gives items) : ∃ next, .ok next ∈ items := by
  cases builtIn with
  | @node kind options rules here below =>
      obtain ⟨children, builtAll, made⟩ := build_eq_ok built
      obtain ⟨prepared, checked, completed, rfl⟩ := Matcher.build_eq_ok made
      have completes := Kind.completes_step here checked completed
        (BuiltIn.completes_children below builtAll)
      obtain ⟨text, placeholder⟩ := Option.ne_none_iff_exists'.mp placed
      obtain ⟨children', rfl⟩ := Kind.prepare_eq_ok here completed
      exact Parser.goes_on_around placeholder completes used gives

end Rule

namespace Sequence

variable {children : List (Parser H)} {live survivors : List (Branch H)} {errors : List Error}

/-- Children that always go on leave some branch. -/
theorem levels_go_on (complete : ∀ child ∈ children, child.Completes)
    (go_on : ∀ child ∈ children, ∀ branch items, branch.input = [] →
      (child.start branch).Gives items → ∃ next, .ok next ∈ items)
    (used : ∀ branch ∈ live, branch.input = []) (nonempty : live ≠ [])
    (ran : (levels children live).Results (errors, survivors)) : survivors ≠ [] := by
  induction children generalizing live errors survivors with
  | nil =>
      cases Action.results_pure ran
      exact nonempty
  | cons child others ih =>
      obtain ⟨items, later, ofLevel, ofOthers, rfl⟩ := levels_cons ran
      obtain ⟨_, continued⟩ := complete_level (complete child List.mem_cons_self) used ofLevel
      apply ih (fun other member => complete other (List.mem_cons_of_mem child member))
        (fun other member => go_on other (List.mem_cons_of_mem child member)) continued ?_ ofOthers
      -- the child goes on from the first branch
      obtain ⟨branch, among⟩ := List.exists_mem_of_ne_nil live nonempty
      obtain ⟨group, gives, inside⟩ := group_of_level ofLevel among
      obtain ⟨next, found⟩ := go_on child List.mem_cons_self branch group (used branch among) gives
      exact List.ne_nil_of_mem (mem_branchesOf.mpr (inside _ found))

theorem step_goes_on {settings : Settings H} {branch : Branch H} {items : List (Item H)}
    (complete : settings.ChildrenComplete)
    (go_on : ∀ child ∈ settings.children, ∀ branch items, branch.input = [] →
      (child.start branch).Gives items → ∃ next, .ok next ∈ items)
    (used : branch.input = []) (gives : (step settings branch).Gives items) : items ≠ [] := by
  obtain ⟨errors, survivors, ran, rfl⟩ := gives_step gives
  have survived : survivors ≠ [] := by
    apply levels_go_on complete go_on ?_ (List.cons_ne_nil branch []) ran
    intro other member
    rw [List.mem_singleton.mp member]
    exact used
  simp [survived]

end Sequence

namespace Rule

variable {rules : List (Rule H)} {options : RuleOptions H} {parser : Parser H}
  {branch : Branch H} {items : List (Item H)}

/-- A sequence of rules with placeholders leaves some branch of one without input, and only
such branches; and a parser never yields its own placeholder but alone, on a branch without
input. -/
theorem placeholders_go_on (builtIn : ∀ rule ∈ rules, rule.BuiltIn)
    (placed : ∀ rule ∈ rules, rule.placeholder? ≠ none)
    (built : (node .sequence options rules).build = .ok parser) (used : branch.input = [])
    (gives : (parser.start branch).Gives items) :
    ((∃ next, .ok next ∈ items) ∧ ∀ next, .ok next ∈ items → next.input = []) ∧
      ∀ (name : String) (enabled : Bool) (settings : Settings H) (matching : Step H)
        (text : Text), settings.placeholder = some text →
        ∀ other found,
          ((Parser.around name enabled settings matching).start other).Gives found →
          ((Parser.around name enabled settings.withoutPlaceholder matching).start other).Gives
              found ∨
            other.input = [] ∧ ∃ shown, found = [.ok shown] ∧ shown.parts = other.parts ++
              [{ content := text, kind := .placeholder, marker := settings.marker }] := by
  refine ⟨?_, fun _ _ _ _ _ placeholder _ _ => Parser.gives_own_placeholder placeholder⟩
  have complete : ∀ item ∈ items, item.Complete := by
    intro item member
    have completes := BuiltIn.completes (.node rfl builtIn) built
    exact completes branch item used ⟨items, gives, member⟩
  have nonempty : items ≠ [] := by
    obtain ⟨children, builtAll, made⟩ := build_eq_ok built
    obtain ⟨prepared, _, completed, rfl⟩ := Matcher.build_eq_ok made
    cases completed
    have below : (options.settings children).ChildrenComplete :=
      BuiltIn.completes_children builtIn builtAll
    have go_on : ∀ child ∈ (options.settings children).children, ∀ other found,
        other.input = [] → (child.start other).Gives found → ∃ next, .ok next ∈ found := by
      intro child member other found left given
      obtain ⟨rule, among, builtChild⟩ := exists_of_mem_forall₂ (buildAll_eq_ok builtAll) member
      exact goes_on (builtIn rule among) (placed rule among) builtChild left given
    cases Parser.gives_relayed gives with
    | matched unfinished found =>
        have left : (branch.pushStack "sequence").input = [] := used
        have through := Sequence.step_goes_on below go_on left found
        simpa using through
    | _ => exact List.cons_ne_nil _ _
  constructor
  · obtain ⟨item, member⟩ := List.exists_mem_of_ne_nil items nonempty
    obtain ⟨next, rfl, _⟩ := complete item member
    exact ⟨next, member⟩
  · intro next member
    obtain ⟨same, found, left⟩ := complete _ member
    cases found
    exact left

/-- A letter to suggest, white space that cannot be suggested, and a number that is not
reached. -/
def hinting : List (Rule Host.quiet) := [
  .node (.literal { text := ['a'] }) { placeholder := some ['x'] } [],
  .node .whitespace { placeholder := some ['y'] } [],
  .node (.number {}) { placeholder := some ['z'], requiresInput := true } []]

/-- A branch whose input was typed in full. -/
def typedOut : Branch Host.quiet where
  given := ['q']
  holder := .plain ()
  data := ()
  parts := [{ content := ['q'], kind := .input }]
  consumed := 1

/-- White space that shows a placeholder where there is none. -/
def hint : Settings Host.quiet := { placeholder := some ['y'] }

def hintedSpace (settings : Settings Host.quiet) : Parser Host.quiet :=
  .around "whitespace" true settings (Whitespace.step hint)

theorem placeholders_go_on_hinting : ∃ parser items found,
    (node .sequence {} hinting).build = .ok parser ∧ typedOut.input = [] ∧
    (parser.start typedOut).Gives items ∧
    (items.map fun item => item.toOption.map fun next => Part.contents next.parts) =
      [some ['q', 'a', 'y']] ∧
    ((∃ next, .ok next ∈ items) ∧ ∀ next, .ok next ∈ items → next.input = []) ∧
    hint.placeholder = some ['y'] ∧ ((hintedSpace hint).start typedOut).Gives found ∧
    (((hintedSpace hint.withoutPlaceholder).start typedOut).Gives found ∨
      typedOut.input = [] ∧ ∃ shown, found = [.ok shown] ∧ shown.parts = typedOut.parts ++
        [{ content := ['y'], kind := .placeholder, marker := none }]) := by
  obtain ⟨parser, built⟩ : ∃ parser, (node .sequence {} hinting).build = .ok parser := ⟨_, rfl⟩
  have spelled : (((parser.start typedOut ()).result.toList ()).result.map fun item =>
      item.toOption.map fun next => Part.contents next.parts) = [some ['q', 'a', 'y']] := by
    cases built
    decide +kernel
  have gives := Action.gives_toList (parser.start typedOut) () ()
  have found := Action.gives_toList ((hintedSpace hint).start typedOut) () ()
  have builtIn : ∀ rule ∈ hinting, rule.BuiltIn := by
    simp only [hinting, List.mem_cons, List.not_mem_nil, or_false, forall_eq_or_imp, forall_eq]
    exact ⟨.node rfl (by simp), .node rfl (by simp), .node rfl (by simp)⟩
  have placed : ∀ rule ∈ hinting, rule.placeholder? ≠ none := by
    simp [hinting, placeholder?]
  obtain ⟨goes_on, alone⟩ := placeholders_go_on builtIn placed built rfl gives
  exact ⟨parser, _, _, built, rfl, gives, spelled, goes_on, rfl, found,
    alone "whitespace" true hint (Whitespace.step hint) ['y'] rfl typedOut _ found⟩

end Rule

end Typeahead
