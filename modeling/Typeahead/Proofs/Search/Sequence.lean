import Typeahead.Proofs.Extending.Rule
import Typeahead.Proofs.Run.Levels

namespace Typeahead

/-! What a sequence finds.

A sequence takes all branches through one child before it turns to the next.  What it
finds is what would be found by taking each branch through all the children before the
next branch, and no error on the way is lost. -/

variable {H : Host}

/-- What the parser yields depends on the branch alone. -/
def Parser.Reads (parser : Parser H) (answers : Branch H → List (Item H)) : Prop :=
  ∀ branch items, (parser.start branch).Gives items → items = answers branch

/-- With one world only there is one way to pull a run. -/
theorem Run.gives_eq_toList {α : Type} [Subsingleton H.World] {run : Run H α} {items : List α}
    (gives : run.Gives items) (world : H.World) : items = (run.toList world).result := by
  induction run using induct generalizing items world with
  | step run ih =>
      obtain ⟨found, given⟩ := gives_iff.mp gives
      rw [Subsingleton.elim found world] at given
      rw [toList_apply]
      cases pulled : run.pull world with
      | ended emitted left =>
          rw [pulled] at given
          exact given
      | item head emitted left rest =>
          rw [pulled] at given
          obtain ⟨others, ofRest, rfl⟩ := given
          have shorter := ih world rest (by simp [pulled, Pull.rest?]) ofRest left
          rw [shorter]
          rfl

/-- What a parser yields to an owner that keeps nothing. -/
def Parser.readings (parser : Parser Host.quiet) (branch : Branch Host.quiet) :
    List (Item Host.quiet) :=
  ((parser.start branch ()).result.toList ()).result

theorem Parser.reads_readings (parser : Parser Host.quiet) : parser.Reads parser.readings := by
  rintro branch items ⟨_, ⟨_, rfl⟩, given⟩
  have : Subsingleton (Host.World Host.quiet) := inferInstanceAs (Subsingleton Unit)
  exact Run.gives_eq_toList given ()

namespace Sequence

/-- The answers of one child after the other, each taken on every branch of the one
before it, depth first. -/
def nested : List (Branch H → List (Item H)) → Branch H → List (Branch H)
  | [], branch => [branch]
  | answers :: others, branch => (branchesOf (answers branch)).flatMap (nested others)

/-- The errors of each child in turn, on every branch that comes through the children
before it. -/
def failures (steps : List (Branch H → List (Item H))) (live : List (Branch H)) : List Error :=
  steps.zipIdx.flatMap fun (answers, place) =>
    (live.flatMap (nested (steps.take place))).flatMap fun survivor => errorsOf (answers survivor)

variable {answers : Branch H → List (Item H)} {steps : List (Branch H → List (Item H))}
  {child : Parser H} {children : List (Parser H)} {branch : Branch H} {live : List (Branch H)}
  {items : List (Item H)}

theorem flatMap_nested (live : List (Branch H)) :
    live.flatMap (nested (answers :: steps)) =
      (branchesOf (live.flatMap answers)).flatMap (nested steps) := by
  rw [branchesOf, List.filterMap_flatMap, List.flatMap_assoc]
  rfl

theorem failures_cons (live : List (Branch H)) :
    failures (answers :: steps) live =
      errorsOf (live.flatMap answers) ++ failures steps (branchesOf (live.flatMap answers)) := by
  have here : (live.flatMap (nested [])).flatMap (fun survivor => errorsOf (answers survivor)) =
      errorsOf (live.flatMap answers) := by
    have none_passed : live.flatMap (nested []) = live := List.flatMap_singleton' live
    rw [none_passed, errorsOf, List.filterMap_flatMap]
    rfl
  rw [failures, List.zipIdx_cons', List.flatMap_cons, List.flatMap_map]
  refine congrArg₂ (· ++ ·) here (List.flatMap_congr fun ⟨others, place⟩ _ => ?_)
  simp only [Prod.map_apply, List.take_succ_cons, flatMap_nested, id_eq]

/-- All branches of a level are answered in turn. -/
theorem level_eq (reads : child.Reads answers) (ran : (level child live).Results items) :
    items = live.flatMap answers := by
  obtain ⟨groups, grouped, rfl⟩ := groups_of_level ran
  have same : List.Forall₂ Eq (live.map answers) groups :=
    List.forall₂_map_left_iff.mpr (grouped.imp fun _ _ gives => (reads _ _ gives).symm)
  rw [List.forall₂_eq_eq_eq] at same
  rw [← same, List.flatMap_def]

theorem levels_eq {errors : List Error} {survivors : List (Branch H)}
    (reads : List.Forall₂ Parser.Reads children steps)
    (ran : (levels children live).Results (errors, survivors)) :
    errors = failures steps live ∧ survivors = live.flatMap (nested steps) := by
  induction reads generalizing live errors survivors with
  | nil =>
      cases Action.results_pure ran
      exact ⟨rfl, by simp [nested]⟩
  | cons first _ ih =>
      obtain ⟨items, later, ofLevel, ofOthers, rfl⟩ := levels_cons ran
      obtain ⟨rfl, rfl⟩ := ih ofOthers
      rw [level_eq first ofLevel, failures_cons, flatMap_nested]
      exact ⟨rfl, rfl⟩

theorem step_eq {settings : Settings H} (reads : List.Forall₂ Parser.Reads settings.children steps)
    (gives : (step settings branch).Gives items) :
    items = (failures steps [branch]).map .error ++ (nested steps branch).map .ok := by
  obtain ⟨errors, survivors, ran, rfl⟩ := gives_step gives
  obtain ⟨rfl, rfl⟩ := levels_eq reads ran
  rw [List.flatMap_singleton]

/-- A branch that every child passes on comes through unchanged. -/
theorem nested_passed (passes : ∀ answers ∈ steps, answers branch = [.ok branch]) :
    failures steps [branch] = [] ∧ nested steps branch = [branch] := by
  induction steps with
  | nil => exact ⟨rfl, rfl⟩
  | cons answers steps ih =>
      have here := passes answers List.mem_cons_self
      obtain ⟨unfailed, through⟩ :=
        ih fun other member => passes other (List.mem_cons_of_mem answers member)
      have only : branchesOf [(.ok branch : Item H)] = [branch] := rfl
      rw [failures_cons, List.flatMap_singleton, nested, here, only, unfailed,
        List.flatMap_singleton, through]
      exact ⟨rfl, rfl⟩

end Sequence

namespace Kind

variable {rules : List (Rule H)} {children : List (Parser H)} {options : RuleOptions H}
  {parser : Parser H} {branch : Branch H} {items : List (Item H)}
  {steps : List (Branch H → List (Item H))}

/-- The branches that a sequence yields are those that its children lead to depth first,
each branch through all of them before the next one; in front of them stand the errors of
every child in turn. -/
theorem sequence_composes (enabled : options.enabled .sequence = true)
    (placeholder : options.placeholder = none) (requiresInput : options.requiresInput = false)
    (builtAll : Rule.buildAll rules = .ok children)
    (built : Kind.sequence.build options children = .ok parser)
    (reads : List.Forall₂ Parser.Reads children steps)
    (gives : (parser.start branch).Gives items) :
    items = (Sequence.failures steps [branch.pushStack "sequence"]).map .error ++
      (Sequence.nested steps (branch.pushStack "sequence")).map fun next => .ok next.popStack := by
  obtain ⟨prepared, _, completed, rfl⟩ := Matcher.build_eq_ok built
  cases completed
  rw [enabled] at gives
  cases finished : branch.isFinished with
  | false =>
      obtain ⟨inner, inside, rfl⟩ :=
        Parser.gives_around finished placeholder requiresInput gives
      rw [Sequence.step_eq reads inside, List.map_append, List.map_map, List.map_map]
      rfl
  | true =>
      -- every child passes the branch on as the sequence itself does
      have passes : ∀ answers ∈ steps,
          answers (branch.pushStack "sequence") = [.ok (branch.pushStack "sequence")] := by
        intro answers member
        obtain ⟨child, among, answered⟩ := exists_of_mem_forall₂ reads member
        obtain ⟨rule, _, builtChild⟩ :=
          exists_of_mem_forall₂ (Rule.buildAll_eq_ok builtAll) among
        obtain ⟨_, ⟨world, _⟩, _⟩ := gives
        have given := Action.gives_toList (child.start (branch.pushStack "sequence")) world world
        rw [← answered _ _ given]
        exact Rule.isFinished_passes builtChild finished given
      obtain ⟨unfailed, through⟩ := Sequence.nested_passed passes
      rw [Parser.gives_finished finished gives, unfailed, through]
      simp [Branch.pushStack, Branch.popStack]

/-- A parser that complains about every branch and lets it pass. -/
def grumbler : Rule Host.quiet :=
  .node (.custom {
    name := "grumbler"
    step := fun _ branch => return .ofList [.error .missingParser, .ok branch]
  }) {} []

/-- Two beginnings of one word, of which only the first has a continuation. -/
def beginnings : List (Rule Host.quiet) := [
  .node .fork {} [
    .node (.literal { text := ['a'] }) {} [],
    .node (.literal { text := ['a', 'b'] }) {} []],
  grumbler,
  .node (.literal { text := ['b', 'c'] }) {} [],
  grumbler]

def threeLetters : Branch Host.quiet where
  given := ['a', 'b', 'c']
  holder := .plain ()
  data := ()

theorem sequence_composes_beginnings : ∃ children parser items,
    ∃ steps : List (Branch Host.quiet → List (Item Host.quiet)),
    Rule.buildAll beginnings = .ok children ∧
    Kind.sequence.build {} children = .ok parser ∧
    List.Forall₂ Parser.Reads children steps ∧
    (parser.start threeLetters).Gives items ∧
    (items.map fun item => item.toOption.map Branch.spelled) =
      [none, none, none, some ['a', 'b', 'c']] ∧
    items = (Sequence.failures steps [threeLetters.pushStack "sequence"]).map .error ++
      (Sequence.nested steps (threeLetters.pushStack "sequence")).map fun next =>
        .ok next.popStack := by
  obtain ⟨children, builtAll⟩ : ∃ children, Rule.buildAll beginnings = .ok children := ⟨_, rfl⟩
  obtain ⟨parser, built⟩ : ∃ parser, Kind.sequence.build {} children = .ok parser := by
    cases builtAll
    exact ⟨_, rfl⟩
  have found : (((parser.start threeLetters ()).result.toList ()).result.map fun item =>
      item.toOption.map Branch.spelled) = [none, none, none, some ['a', 'b', 'c']] := by
    cases builtAll
    cases built
    decide +kernel
  have reads : List.Forall₂ Parser.Reads children (children.map Parser.readings) :=
    List.forall₂_map_right_iff.mpr (List.forall₂_same.mpr fun child _ => child.reads_readings)
  have gives := Action.gives_toList (parser.start threeLetters) () ()
  exact ⟨children, parser, _, _, builtAll, built, reads, gives, found,
    sequence_composes rfl rfl rfl builtAll built reads gives⟩

end Kind

end Typeahead
