import Typeahead.Matcher.Sequence
import Typeahead.Proofs.Run.Yields

namespace Typeahead.Sequence

/-! One child on all the branches that are live. -/

variable {H : Host} {child : Parser H} {live : List (Branch H)} {items : List (Item H)}

/-- Every branch is continued to the end before the next one. -/
theorem groups_of_level (ran : (level child live).Results items) :
    ∃ groups, List.Forall₂ (fun branch group => (child.start branch).Gives group) live groups ∧
      items = groups.flatten := by
  induction live generalizing items with
  | nil => exact ⟨[], .nil, Action.results_pure ran⟩
  | cons branch others ih =>
      obtain ⟨run, begun, rest⟩ := Action.results_bind ran
      obtain ⟨first, ⟨world, pulled⟩, rest⟩ := Action.results_bind rest
      obtain ⟨more, ofOthers, answered⟩ := Action.results_bind rest
      obtain ⟨groups, grouped, rfl⟩ := ih ofOthers
      have gives : run.Gives first := pulled ▸ Run.gives_toList run world
      exact ⟨first :: groups, .cons ⟨run, begun, gives⟩ grouped, Action.results_pure answered⟩

theorem yields_of_level {item : Item H} (ran : (level child live).Results items)
    (member : item ∈ items) : ∃ branch ∈ live, (child.start branch).Yields item := by
  obtain ⟨groups, grouped, rfl⟩ := groups_of_level ran
  obtain ⟨branch, among, group, gives, inside⟩ := exists_of_mem_flatten grouped member
  exact ⟨branch, among, group, gives, inside⟩

theorem group_of_level {branch : Branch H} (ran : (level child live).Results items)
    (member : branch ∈ live) :
    ∃ group, (child.start branch).Gives group ∧ ∀ item ∈ group, item ∈ items := by
  obtain ⟨groups, grouped, rfl⟩ := groups_of_level ran
  obtain ⟨group, among, gives⟩ := exists_of_mem_forall₂ grouped.flip member
  exact ⟨group, gives, fun item inside => List.mem_flatten.mpr ⟨group, among, inside⟩⟩

theorem mem_errorsOf {cause : Error} : cause ∈ errorsOf items ↔ .error cause ∈ items := by
  unfold errorsOf
  constructor
  · intro found
    obtain ⟨item, member, answered⟩ := List.mem_filterMap.mp found
    cases item with
    | ok branch => simp at answered
    | error other =>
        cases answered
        exact member
  · intro member
    exact List.mem_filterMap.mpr ⟨_, member, rfl⟩

theorem mem_branchesOf {branch : Branch H} : branch ∈ branchesOf items ↔ .ok branch ∈ items := by
  rw [branchesOf]
  constructor
  · intro found
    obtain ⟨item, member, answered⟩ := List.mem_filterMap.mp found
    cases item with
    | ok other =>
        cases answered
        exact member
    | error cause => simp at answered
  · intro member
    exact List.mem_filterMap.mpr ⟨_, member, rfl⟩

/-- The branches that one child left are live for the next. -/
theorem levels_cons {children : List (Parser H)} {errors : List Error}
    {survivors : List (Branch H)}
    (ran : (levels (child :: children) live).Results (errors, survivors)) :
    ∃ items later, (level child live).Results items ∧
      (levels children (branchesOf items)).Results (later, survivors) ∧
      errors = errorsOf items ++ later := by
  obtain ⟨items, ofLevel, rest⟩ := Action.results_bind ran
  obtain ⟨⟨later, left⟩, ofOthers, answered⟩ := Action.results_bind rest
  cases Action.results_pure answered
  exact ⟨items, later, ofLevel, ofOthers, rfl⟩

/-- What all children failed at, and then what the last one left. -/
theorem gives_step {settings : Settings H} {branch : Branch H}
    (gives : (step settings branch).Gives items) :
    ∃ errors survivors, (levels settings.children [branch]).Results (errors, survivors) ∧
      items = errors.map .error ++ survivors.map .ok := by
  obtain ⟨⟨errors, survivors⟩, ran, given⟩ :=
    Action.gives_bind (Run.gives_defer (Action.gives_pure gives))
  exact ⟨errors, survivors, ran, Run.gives_ofList (Action.gives_pure given)⟩

theorem yields_step {settings : Settings H} {branch : Branch H} {item : Item H}
    (yielded : (step settings branch).Yields item) :
    ∃ errors survivors, (levels settings.children [branch]).Results (errors, survivors) ∧
      ((∃ cause ∈ errors, item = .error cause) ∨ ∃ next ∈ survivors, item = .ok next) := by
  obtain ⟨items, gives, member⟩ := yielded
  obtain ⟨errors, survivors, ran, rfl⟩ := gives_step gives
  refine ⟨errors, survivors, ran, (List.mem_append.mp member).imp ?_ ?_⟩
  · intro failed
    obtain ⟨cause, among, same⟩ := List.mem_map.mp failed
    exact ⟨cause, among, same.symm⟩
  · intro survived
    obtain ⟨next, among, same⟩ := List.mem_map.mp survived
    exact ⟨next, among, same.symm⟩

/-- The children lead from one branch to another, one after the other. -/
inductive Through : List (Parser H) → Branch H → Branch H → Prop
  | done {branch : Branch H} : Through [] branch branch
  | child {child : Parser H} {others : List (Parser H)} {branch middle next : Branch H}
      (found : (child.start branch).Yields (.ok middle)) (rest : Through others middle next) :
      Through (child :: others) branch next

theorem through_of_levels {children : List (Parser H)} {next : Branch H}
    {errors : List Error} {survivors : List (Branch H)}
    (ran : (levels children live).Results (errors, survivors)) (member : next ∈ survivors) :
    ∃ branch ∈ live, Through children branch next := by
  induction children generalizing live errors survivors with
  | nil =>
      cases Action.results_pure ran
      exact ⟨next, member, .done⟩
  | cons child others ih =>
      obtain ⟨items, later, ofLevel, ofOthers, rfl⟩ := levels_cons ran
      obtain ⟨middle, among, through⟩ := ih ofOthers member
      obtain ⟨branch, first, found⟩ := yields_of_level ofLevel (mem_branchesOf.mp among)
      exact ⟨branch, first, .child found through⟩

theorem through_of_step {settings : Settings H} {branch next : Branch H}
    (yielded : (step settings branch).Yields (.ok next)) :
    Through settings.children branch next := by
  obtain ⟨errors, survivors, ran, ⟨cause, _, impossible⟩ | ⟨last, member, same⟩⟩ :=
    yields_step yielded
  · contradiction
  · cases same
    obtain ⟨start, only, through⟩ := through_of_levels ran member
    exact List.mem_singleton.mp only ▸ through

end Typeahead.Sequence
