import Typeahead.Proofs.Branch.Growth
import Typeahead.Proofs.Run.Yields

namespace Typeahead

/-! What surrounds the matching of every parser. -/

variable {H : Host}

namespace Branch

theorem ahead_of_given {branch : Branch H} (nothing : branch.given = []) : branch.ahead = [] := by
  rw [ahead, nothing]
  cases branch.consumed <;> rfl

theorem input_of_wantsPlaceholder {branch : Branch H} (wanted : branch.wantsPlaceholder = true) :
    branch.input = [] := by
  simp only [wantsPlaceholder, Bool.or_eq_true, Bool.and_eq_true, Bool.not_eq_true',
    List.isEmpty_iff] at wanted
  rcases wanted with nothing | ⟨used, _⟩
  · simp [input, ahead_of_given nothing]
  · exact hasInput_eq_false_iff.mp used

end Branch

inductive Item.Carries : Item H → Item H → Prop
  | ok (branch : Branch H) (data : H.Data) : Carries (.ok branch) (.ok { branch with data })
  | error (cause : Error) : Carries (.error cause) (.error cause)

theorem Branch.Leads.carries {branch : Branch H} {item carried : Item H}
    (leads : branch.Leads item) (carries : item.Carries carried) : branch.Leads carried := by
  cases carries with
  | ok next data =>
      cases leads with
      | grown further => exact .grown (further.trans (Branch.Grown.withData next data))
  | error cause => exact leads

namespace Settings

variable {settings : Settings H} {enabled : Bool} {branch next : Branch H}

theorem emit_results {emission : Emission H}
    (emitted : (settings.emit branch emission).Results next) :
    ∃ data, next = { branch with data } := by
  rw [emit] at emitted
  cases handled : settings.onEmission with
  | none =>
      rw [handled] at emitted
      exact ⟨branch.data, Action.results_pure emitted⟩
  | some handler =>
      rw [handled] at emitted
      obtain ⟨answer, _, given⟩ := Action.results_bind emitted
      cases answer with
      | none => exact ⟨branch.data, Action.results_pure given⟩
      | some data => exact ⟨data, Action.results_pure given⟩

theorem gives_yieldExtended {extended : Item H} {emission : Option (Emission H)}
    {items : List (Item H)} (gives : (settings.yieldExtended extended emission).Gives items) :
    ∃ item, items = [item] ∧ extended.Carries item := by
  unfold yieldExtended at gives
  cases extended with
  | error cause => exact ⟨_, Run.gives_one (Action.gives_pure gives), .error cause⟩
  | ok branch =>
      cases emission with
      | none => exact ⟨_, Run.gives_one (Action.gives_pure gives), .ok branch branch.data⟩
      | some emission =>
          obtain ⟨next, emitted, given⟩ := Action.gives_bind gives
          obtain ⟨data, rfl⟩ := emit_results emitted
          exact ⟨_, Run.gives_one (Action.gives_pure given), .ok branch data⟩

theorem yields_yieldExtended {extended item : Item H} {emission : Option (Emission H)}
    (yielded : (settings.yieldExtended extended emission).Yields item) : extended.Carries item := by
  obtain ⟨items, gives, member⟩ := yielded
  obtain ⟨only, rfl, carries⟩ := gives_yieldExtended gives
  exact List.mem_singleton.mp member ▸ carries

/-- The placeholder comes last, and finishes its branch. -/
theorem addPlaceholder_eq_ok {text : Text}
    (shown : settings.addPlaceholder text branch = .ok next) :
    next.isFinished = true ∧ next.parts = branch.parts ++
      [{ content := text, kind := .placeholder, marker := settings.marker }] := by
  rw [addPlaceholder] at shown
  cases placed :
      branch.add { content := text, kind := .placeholder, marker := settings.marker } with
  | error cause => simp [placed, bind, Except.bind] at shown
  | ok added =>
      rw [placed] at shown
      cases shown
      obtain ⟨consumed, pastEnd, rfl⟩ := Branch.add_eq_ok placed
      exact ⟨rfl, rfl⟩

theorem leave_results {item left : Item H} (answered : (settings.leave item).Results left) :
    left = item.map Branch.popStack := by
  cases item with
  | error cause => exact Action.results_pure answered
  | ok branch =>
      obtain ⟨_, _, given⟩ := Action.results_bind answered
      exact Action.results_pure given

theorem courseOnInput_ne_showPlaceholder {text : Text} :
    settings.courseOnInput branch ≠ .showPlaceholder text := by
  rw [courseOnInput]
  split <;> simp

theorem courseOnInput_ne_pass : settings.courseOnInput branch ≠ .pass := by
  rw [courseOnInput]
  split <;> simp

theorem courseOnInput_eq_finish :
    settings.courseOnInput branch = .finish ↔
      settings.requiresInput = true ∧ branch.input = [] := by
  rw [courseOnInput]
  rw [← Branch.hasInput_eq_false_iff]
  split
  · rename_i lacking
    simpa using lacking
  · rename_i enough
    simp only [Bool.and_eq_true, Bool.not_eq_true'] at enough
    simp [enough]

theorem unfinished_of_course (runs : settings.course enabled branch ≠ .pass) :
    branch.isFinished = false ∧ enabled = true := by
  rw [course] at runs
  split at runs
  · simp at runs
  · rename_i active
    simpa using active

theorem course_eq_pass (taken : settings.course enabled branch = .pass) :
    branch.isFinished = true ∨ enabled = false := by
  rw [course] at taken
  split at taken
  · rename_i off
    simpa using off
  · split at taken
    · split at taken
      · simp at taken
      · exact absurd taken courseOnInput_ne_pass
    · exact absurd taken courseOnInput_ne_pass

theorem course_eq_showPlaceholder {text : Text}
    (taken : settings.course enabled branch = .showPlaceholder text) :
    settings.placeholder = some text ∧ branch.wantsPlaceholder = true := by
  rw [course] at taken
  split at taken
  · simp at taken
  · split at taken
    · rename_i shown placeholder
      split at taken
      · rename_i wanted
        cases taken
        exact ⟨placeholder, wanted⟩
      · exact absurd taken courseOnInput_ne_showPlaceholder
    · exact absurd taken courseOnInput_ne_showPlaceholder

theorem course_eq_finish (taken : settings.course enabled branch = .finish) :
    settings.requiresInput = true ∧ branch.input = [] := by
  rw [course] at taken
  split at taken
  · simp at taken
  · split at taken
    · split at taken
      · simp at taken
      · exact courseOnInput_eq_finish.mp taken
    · exact courseOnInput_eq_finish.mp taken

theorem fallback_results {answer : Option (Item H)}
    (answered : (settings.fallback branch).Results answer) :
    answer = none ∨ ∃ text copy, settings.placeholder = some text ∧ branch.input = [] ∧
      branch.fork.Results copy ∧ answer = some (settings.addPlaceholder text copy) := by
  rw [fallback] at answered
  split at answered
  · rename_i text placeholder
    split at answered
    · exact .inl (Action.results_pure answered)
    · rename_i lacking
      obtain ⟨copy, copied, given⟩ := Action.results_bind answered
      have used := Branch.hasInput_eq_false_iff.mp (by simpa using lacking)
      exact .inr ⟨text, copy, placeholder, used, copied, Action.results_pure given⟩
  · exact .inl (Action.results_pure answered)

/-- Without a fallback there is no placeholder to show, or there is input. -/
theorem unshown_of_fallback {answer : Option (Item H)}
    (answered : (settings.fallback branch).Results answer) (missing : answer = none) :
    settings.placeholder = none ∨ branch.input ≠ [] := by
  subst missing
  rw [fallback] at answered
  split at answered
  · split at answered
    · rename_i left
      exact .inr (Branch.hasInput_iff.mp left)
    · obtain ⟨copy, _, given⟩ := Action.results_bind answered
      cases Action.results_pure given
  · rename_i missing
    exact .inl missing

end Settings

namespace Parser

variable {settings : Settings H} {enabled : Bool} {branch : Branch H} {name : String}
  {matching : Step H}

/-- All that a parser yields for a branch, by its course. -/
inductive Relayed (settings : Settings H) (enabled : Bool) (branch : Branch H)
    (inner : List (Item H) → Prop) : List (Item H) → Prop
  | passed (off : branch.isFinished = true ∨ enabled = false) :
      Relayed settings enabled branch inner [.ok branch]
  | shown {text : Text} (unfinished : branch.isFinished = false) (used : branch.input = [])
      (placeholder : settings.placeholder = some text) :
      Relayed settings enabled branch inner [settings.addPlaceholder text branch]
  | finished (required : settings.requiresInput = true) (used : branch.input = []) :
      Relayed settings enabled branch inner [.ok branch.finish]
  | matched {items : List (Item H)} (unfinished : branch.isFinished = false)
      (found : inner items)
      (enough : items = [] → settings.placeholder = none ∨ branch.input ≠ []) :
      Relayed settings enabled branch inner (items.map (·.map Branch.popStack))
  | fellBack {text : Text} {copy : Branch H} (unfinished : branch.isFinished = false)
      (used : branch.input = []) (copied : branch.fork.Results copy)
      (placeholder : settings.placeholder = some text) (nothing : inner []) :
      Relayed settings enabled branch inner [settings.addPlaceholder text copy]

theorem gives_relayed {items : List (Item H)}
    (gives : ((Parser.around name enabled settings matching).start branch).Gives items) :
    Relayed settings enabled branch (matching (branch.pushStack name)).Gives items := by
  dsimp only [around] at gives
  split at gives
  · rename_i taken
    rw [Run.gives_one (Action.gives_pure gives)]
    exact .passed (Settings.course_eq_pass taken)
  · rename_i text taken
    rw [Run.gives_one (Action.gives_pure gives)]
    have runs : settings.course enabled branch ≠ .pass := by simp [taken]
    obtain ⟨placeholder, wanted⟩ := Settings.course_eq_showPlaceholder taken
    exact .shown (Settings.unfinished_of_course runs).1 (Branch.input_of_wantsPlaceholder wanted)
      placeholder
  · rename_i taken
    rw [Run.gives_one (Action.gives_pure gives)]
    obtain ⟨required, used⟩ := Settings.course_eq_finish taken
    exact .finished required used
  · rename_i taken
    have runs : settings.course enabled branch ≠ .pass := by simp [taken]
    have unfinished := (Settings.unfinished_of_course runs).1
    obtain ⟨fallback, answered, running⟩ := Action.gives_bind gives
    obtain ⟨run, begun, surrounded⟩ := Action.gives_bind running
    have answers := Settings.fallback_results answered
    rcases Run.gives_orElse (Action.gives_pure surrounded) with
      ⟨inside, only⟩ | ⟨item, inside, taken, rfl⟩
    · obtain ⟨inner, given, left⟩ := Run.gives_mapAction inside
      have same : List.Forall₂ Eq (inner.map (·.map Branch.popStack)) items :=
        List.forall₂_map_left_iff.mpr
          (left.imp fun _ _ answered => (Settings.leave_results answered).symm)
      rw [List.forall₂_eq_eq_eq] at same
      subst same
      refine .matched unfinished ⟨run, begun, given⟩ fun nothing => ?_
      exact Settings.unshown_of_fallback answered (only (by rw [nothing, List.map_nil]))
    · obtain ⟨inner, given, left⟩ := Run.gives_mapAction inside
      cases left
      rcases answers with missing | ⟨text, copy, placeholder, used, copied, shown⟩
      · simp [missing] at taken
      · rw [shown] at taken
        cases taken
        exact .fellBack unfinished used copied placeholder ⟨run, begun, given⟩

/-- What a parser yields for a branch, by its course. -/
inductive Around (settings : Settings H) (branch : Branch H) (inner : Item H → Prop) :
    Item H → Prop
  | passed : Around settings branch inner (.ok branch)
  | shown {text : Text} (unfinished : branch.isFinished = false) (used : branch.input = [])
      (placeholder : settings.placeholder = some text) :
      Around settings branch inner (settings.addPlaceholder text branch)
  | finished (used : branch.input = []) : Around settings branch inner (.ok branch.finish)
  | matched {item : Item H} (unfinished : branch.isFinished = false) (found : inner item) :
      Around settings branch inner (item.map Branch.popStack)
  | fellBack {text : Text} {copy : Branch H} (unfinished : branch.isFinished = false)
      (used : branch.input = []) (copied : branch.fork.Results copy)
      (placeholder : settings.placeholder = some text) :
      Around settings branch inner (settings.addPlaceholder text copy)

theorem yields_around {item : Item H}
    (yielded : ((Parser.around name enabled settings matching).start branch).Yields item) :
    Around settings branch (matching (branch.pushStack name)).Yields item := by
  obtain ⟨items, gives, member⟩ := yielded
  cases gives_relayed gives with
  | passed => exact List.mem_singleton.mp member ▸ .passed
  | shown unfinished used placeholder =>
      exact List.mem_singleton.mp member ▸ .shown unfinished used placeholder
  | finished _ used => exact List.mem_singleton.mp member ▸ .finished used
  | matched unfinished found =>
      obtain ⟨inner, among, rfl⟩ := List.mem_map.mp member
      exact .matched unfinished ⟨_, found, among⟩
  | fellBack unfinished used copied placeholder =>
      exact List.mem_singleton.mp member ▸ .fellBack unfinished used copied placeholder

theorem start_around (name : String) (matching : Step H)
    (proceeds : settings.course enabled branch = .proceed) (world : H.World) :
    let copied := settings.fallback branch world
    let begun := matching (branch.pushStack name) copied.world
    (Parser.around name enabled settings matching).start branch world =
      ⟨(begun.result.mapAction settings.leave).orElse copied.result,
        copied.emitted ++ begun.emitted, begun.world⟩ := by
  dsimp only [around]
  rw [proceeds]
  simp [Action.bind_def, Action.map_def]

/-- A finished branch is passed on as it is. -/
theorem gives_finished {items : List (Item H)} (finished : branch.isFinished = true)
    (gives : ((Parser.around name enabled settings matching).start branch).Gives items) :
    items = [.ok branch] := by
  have taken : settings.course enabled branch = .pass := by simp [Settings.course, finished]
  dsimp only [around] at gives
  rw [taken] at gives
  exact Run.gives_one (Action.gives_pure gives)

theorem gives_around {items : List (Item H)} (unfinished : branch.isFinished = false)
    (placeholder : settings.placeholder = none) (requiresInput : settings.requiresInput = false)
    (gives : ((Parser.around name true settings matching).start branch).Gives items) :
    ∃ inner, (matching (branch.pushStack name)).Gives inner ∧
      items = inner.map (·.map Branch.popStack) := by
  cases gives_relayed gives with
  | passed off => simp [unfinished] at off
  | shown _ _ shown => simp [placeholder] at shown
  | finished required => simp [requiresInput] at required
  | matched _ found => exact ⟨_, found, rfl⟩
  | fellBack _ _ _ shown => simp [placeholder] at shown

end Parser

end Typeahead
