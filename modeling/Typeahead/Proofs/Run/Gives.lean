import Mathlib.Data.List.Forall2
import Typeahead.Matcher.Extension
import Typeahead.Matcher.Sequence
import Typeahead.Run.Lemmas

namespace Typeahead

/-! What a run gives when it is pulled to its end.

Between two pulls the owner may do as it likes, so each pull may find any world.
`Gives` collects the lists of items that are possible then, and every way of
making runs is described by what it gives in terms of what its parts give. -/

variable {H : Host} {α β : Type}

mutual

/-- The items of a run that is pulled to its end, whatever world each pull finds. -/
def Run.Gives : Run H α → List α → Prop
  | .suspended pull, items => ∃ world, (pull world).Gives items

def Pull.Gives : Pull H α → List α → Prop
  | .ended _ _, items => items = []
  | .item head _ _ rest, items => ∃ others, rest.Gives others ∧ items = head :: others

end

namespace Action

/-- What an action answers in some world. -/
def Results (action : Action H α) (result : α) : Prop :=
  ∃ world, (action world).result = result

/-- The items of a run that an action begins. -/
def Gives (begin : Action H (Run H α)) (items : List α) : Prop :=
  ∃ run, begin.Results run ∧ run.Gives items

variable {action : Action H α} {next : α → Action H β} {begin : Action H (Run H α)}

theorem results_pure {result answer : α} (answered : (pure answer : Action H α).Results result) :
    result = answer := by
  obtain ⟨_, rfl⟩ := answered
  rfl

theorem results_bind {result : β} (answered : (action >>= next).Results result) :
    ∃ middle, action.Results middle ∧ (next middle).Results result := by
  obtain ⟨world, rfl⟩ := answered
  exact ⟨(action world).result, ⟨world, rfl⟩, (action world).world, rfl⟩

theorem gives_pure {run : Run H α} {items : List α}
    (gives : Gives (pure run : Action H (Run H α)) items) : run.Gives items := by
  obtain ⟨_, answered, given⟩ := gives
  exact results_pure answered ▸ given

theorem gives_bind {next : β → Action H (Run H α)} {action : Action H β} {items : List α}
    (gives : (action >>= next).Gives items) :
    ∃ middle, action.Results middle ∧ (next middle).Gives items := by
  obtain ⟨run, answered, given⟩ := gives
  obtain ⟨middle, first, second⟩ := results_bind answered
  exact ⟨middle, first, run, second, given⟩

end Action

namespace Pull

theorem gives_after {emitted : List H.Value} {pulled : Pull H α} {items : List α} :
    (pulled.after emitted).Gives items ↔ pulled.Gives items := by
  cases pulled <;> simp only [after, Gives]

end Pull

namespace Run

@[simp] theorem pull_take_zero (run : Run H α) (world : H.World) :
    (run.take 0).pull world = .ended [] world := by
  cases run
  rfl

@[simp] theorem pull_take_succ (limit : Nat) (run : Run H α) (world : H.World) :
    (run.take (limit + 1)).pull world = (run.pull world).takeMore limit := by
  cases run
  rfl

@[simp] theorem pull_capped_zero (counts : α → Bool) (run : Run H α) (world : H.World) :
    (run.capped counts 0).pull world = .ended [] world := by
  cases run
  rfl

@[simp] theorem pull_capped_succ (counts : α → Bool) (cap : Nat) (run : Run H α)
    (world : H.World) :
    (run.capped counts (cap + 1)).pull world = (run.pull world).cappedMore counts cap := by
  cases run
  rfl

theorem gives_iff {run : Run H α} {items : List α} :
    run.Gives items ↔ ∃ world, (run.pull world).Gives items := by
  cases run
  rfl

theorem gives_of_ended {run : Run H α} {world left : H.World} {emitted : List H.Value}
    (pulled : run.pull world = .ended emitted left) : run.Gives [] :=
  gives_iff.mpr ⟨world, by rw [pulled]; rfl⟩

theorem gives_of_item {run rest : Run H α} {world left : H.World} {emitted : List H.Value}
    {head : α} {items : List α} (pulled : run.pull world = .item head emitted left rest)
    (others : rest.Gives items) : run.Gives (head :: items) :=
  gives_iff.mpr ⟨world, by rw [pulled]; exact ⟨items, others, rfl⟩⟩

theorem gives_toList (run : Run H α) (world : H.World) :
    run.Gives (run.toList world).result := by
  induction run using induct generalizing world with
  | step run ih =>
      rw [gives_iff]
      refine ⟨world, ?_⟩
      rw [toList_apply]
      cases pulled : run.pull world with
      | ended emitted left => rfl
      | item head emitted left rest =>
          exact ⟨_, ih world rest (by simp [pulled, Pull.rest?]) left, rfl⟩

theorem gives_empty {items : List α} (gives : (empty : Run H α).Gives items) : items = [] := by
  obtain ⟨_, given⟩ := gives
  exact given

theorem gives_cons {head : α} {rest : Run H α} {items : List α}
    (gives : (cons head rest).Gives items) :
    ∃ others, rest.Gives others ∧ items = head :: others := by
  obtain ⟨_, given⟩ := gives
  exact given

theorem gives_one {item : α} {items : List α} (gives : (one item : Run H α).Gives items) :
    items = [item] := by
  obtain ⟨others, given, rfl⟩ := gives_cons gives
  rw [gives_empty given]

theorem gives_ofList {members items : List α}
    (gives : (ofList members : Run H α).Gives items) : items = members := by
  induction members generalizing items with
  | nil => exact gives_empty gives
  | cons member members ih =>
      obtain ⟨others, given, rfl⟩ := gives_cons gives
      rw [ih given]

theorem gives_defer {begin : Action H (Run H α)} {items : List α}
    (gives : (defer begin).Gives items) : begin.Gives items := by
  obtain ⟨world, given⟩ := gives
  exact ⟨_, ⟨world, rfl⟩, gives_iff.mpr ⟨_, Pull.gives_after.mp given⟩⟩

theorem gives_append {first second : Run H α} {items : List α}
    (gives : (first.append second).Gives items) :
    ∃ left right, first.Gives left ∧ second.Gives right ∧ items = left ++ right := by
  induction first using induct generalizing items with
  | step run ih =>
      obtain ⟨world, given⟩ := gives_iff.mp gives
      rw [pull_append] at given
      cases pulled : run.pull world with
      | ended emitted left =>
          rw [pulled] at given
          exact ⟨[], items, gives_of_ended pulled,
            gives_iff.mpr ⟨_, Pull.gives_after.mp given⟩, rfl⟩
      | item head emitted left rest =>
          rw [pulled] at given
          obtain ⟨others, given, rfl⟩ := given
          obtain ⟨front, back, ofRest, ofSecond, rfl⟩ :=
            ih world rest (by simp [pulled, Pull.rest?]) given
          exact ⟨head :: front, back, gives_of_item pulled ofRest, ofSecond, rfl⟩

theorem gives_mapAction {f : α → Action H β} {run : Run H α} {items : List β}
    (gives : (run.mapAction f).Gives items) :
    ∃ heads, run.Gives heads ∧
      List.Forall₂ (fun head item => (f head).Results item) heads items := by
  induction run using induct generalizing items with
  | step run ih =>
      obtain ⟨world, given⟩ := gives_iff.mp gives
      rw [pull_mapAction] at given
      cases pulled : run.pull world with
      | ended emitted left =>
          rw [pulled] at given
          cases given
          exact ⟨[], gives_of_ended pulled, List.Forall₂.nil⟩
      | item head emitted left rest =>
          rw [pulled] at given
          obtain ⟨others, given, rfl⟩ := given
          obtain ⟨heads, ofRest, changed⟩ := ih world rest (by simp [pulled, Pull.rest?]) given
          exact ⟨head :: heads, gives_of_item pulled ofRest,
            List.Forall₂.cons ⟨left, rfl⟩ changed⟩

theorem gives_filterMap {f : α → Option β} {run : Run H α} {items : List β}
    (gives : (run.filterMap f).Gives items) :
    ∃ heads, run.Gives heads ∧ items = heads.filterMap f := by
  induction run using induct generalizing items with
  | step run ih =>
      obtain ⟨world, given⟩ := gives_iff.mp gives
      rw [pull_filterMap] at given
      cases pulled : run.pull world with
      | ended emitted left =>
          rw [pulled] at given
          cases given
          exact ⟨[], gives_of_ended pulled, rfl⟩
      | item head emitted left rest =>
          rw [pulled] at given
          have shorter := @ih world rest (by simp [pulled, Pull.rest?])
          cases answered : f head with
          | some changed =>
              simp only [Pull.filterMap, answered] at given
              obtain ⟨others, given, rfl⟩ := given
              obtain ⟨heads, ofRest, rfl⟩ := shorter given
              exact ⟨head :: heads, gives_of_item pulled ofRest, by simp [answered]⟩
          | none =>
              simp only [Pull.filterMap, answered] at given
              obtain ⟨heads, ofRest, rfl⟩ :=
                shorter (gives_iff.mpr ⟨left, Pull.gives_after.mp given⟩)
              exact ⟨head :: heads, gives_of_item pulled ofRest, by simp [answered]⟩

theorem gives_flatMap {f : α → Action H (Run H β)} {run : Run H α} {items : List β}
    (gives : (run.flatMap f).Gives items) :
    ∃ heads groups, run.Gives heads ∧
      List.Forall₂ (fun head group => (f head).Gives group) heads groups ∧
      items = groups.flatten := by
  induction run using induct generalizing items with
  | step run ih =>
      obtain ⟨world, given⟩ := gives_iff.mp gives
      rw [pull_flatMap] at given
      cases pulled : run.pull world with
      | ended emitted left =>
          rw [pulled] at given
          cases given
          exact ⟨[], [], gives_of_ended pulled, List.Forall₂.nil, rfl⟩
      | item head emitted left rest =>
          rw [pulled] at given
          -- the pull goes on in the run that the head leads to
          have chained := gives_iff.mpr ⟨_, Pull.gives_after.mp given⟩
          obtain ⟨group, behind, ofHead, ofRest, rfl⟩ := gives_append chained
          obtain ⟨heads, groups, ofHeads, grouped, rfl⟩ :=
            ih world rest (by simp [pulled, Pull.rest?]) ofRest
          exact ⟨head :: heads, group :: groups, gives_of_item pulled ofHeads,
            List.Forall₂.cons ⟨_, ⟨left, rfl⟩, ofHead⟩ grouped, rfl⟩

theorem gives_concatMap {f : β → Action H (Run H α)} {members : List β} {items : List α}
    (gives : (concatMap f members).Gives items) :
    ∃ groups, List.Forall₂ (fun member group => (f member).Gives group) members groups ∧
      items = groups.flatten := by
  induction members generalizing items with
  | nil => exact ⟨[], List.Forall₂.nil, gives_empty gives⟩
  | cons member members ih =>
      obtain ⟨run, begun, given⟩ := Action.gives_bind (gives_defer gives)
      obtain ⟨group, behind, ofMember, ofOthers, rfl⟩ :=
        gives_append (Action.gives_pure given)
      obtain ⟨groups, grouped, rfl⟩ := ih ofOthers
      exact ⟨group :: groups, List.Forall₂.cons ⟨run, begun, ofMember⟩ grouped, rfl⟩

/-- The fallback is given where the run gives nothing, and nowhere else. -/
theorem gives_orElse {run : Run H α} {fallback : Option α} {items : List α}
    (gives : (run.orElse fallback).Gives items) :
    (run.Gives items ∧ (items = [] → fallback = none)) ∨
      ∃ item, run.Gives [] ∧ fallback = some item ∧ items = [item] := by
  obtain ⟨world, given⟩ := gives
  cases pulled : run.pull world with
  | ended emitted left =>
      cases fallback with
      | none =>
          simp only [pulled] at given
          exact .inl ⟨gives_iff.mpr ⟨world, by rw [pulled]; exact given⟩, fun _ => rfl⟩
      | some item =>
          simp only [pulled] at given
          obtain ⟨others, given, rfl⟩ := given
          exact .inr ⟨item, gives_of_ended pulled, rfl, by rw [gives_empty given]⟩
  | item head emitted left rest =>
      simp only [pulled] at given
      obtain ⟨others, given, rfl⟩ := given
      exact .inl ⟨gives_of_item pulled given, by simp⟩

/-- What lies behind the last item taken can still be pulled. -/
theorem gives_take {limit : Nat} {run : Run H α} {items : List α}
    (gives : (run.take limit).Gives items) :
    ∃ all, run.Gives all ∧ items = all.take limit := by
  induction limit generalizing run items with
  | zero =>
      obtain ⟨world, given⟩ := gives_iff.mp gives
      rw [pull_take_zero] at given
      cases given
      exact ⟨_, gives_toList run world, rfl⟩
  | succ limit ih =>
      obtain ⟨world, given⟩ := gives_iff.mp gives
      rw [pull_take_succ] at given
      cases pulled : run.pull world with
      | ended emitted left =>
          rw [pulled] at given
          cases given
          exact ⟨[], gives_of_ended pulled, rfl⟩
      | item head emitted left rest =>
          rw [pulled] at given
          obtain ⟨others, given, rfl⟩ := given
          obtain ⟨all, ofRest, rfl⟩ := ih given
          exact ⟨head :: all, gives_of_item pulled ofRest, rfl⟩

/-- The items of a list up to the given number of those that count. -/
def upTo (counts : α → Bool) : Nat → List α → List α
  | 0, _ => []
  | _ + 1, [] => []
  | cap + 1, item :: others => item :: upTo counts (if counts item then cap else cap + 1) others

theorem upTo_leading (counts : α → Bool) (cap : Nat) (items : List α) :
    upTo counts cap items <+: items := by
  induction items generalizing cap with
  | nil => cases cap <;> exact List.nil_prefix
  | cons item others ih =>
      cases cap with
      | zero => exact List.nil_prefix
      | succ cap => exact (List.prefix_cons_inj item).mpr (ih _)

/-- What lies behind the last item that counts can still be pulled. -/
theorem gives_capped {counts : α → Bool} {cap : Nat} {run : Run H α} {items : List α}
    (gives : (run.capped counts cap).Gives items) :
    ∃ all, run.Gives all ∧ items = upTo counts cap all := by
  induction run using induct generalizing cap items with
  | step run ih =>
      obtain ⟨world, given⟩ := gives_iff.mp gives
      cases cap with
      | zero =>
          rw [pull_capped_zero] at given
          cases given
          exact ⟨_, gives_toList run world, by rw [upTo]⟩
      | succ cap =>
          rw [pull_capped_succ] at given
          cases pulled : run.pull world with
          | ended emitted left =>
              rw [pulled] at given
              cases given
              exact ⟨[], gives_of_ended pulled, rfl⟩
          | item head emitted left rest =>
              rw [pulled] at given
              obtain ⟨others, given, rfl⟩ := given
              obtain ⟨all, ofRest, rfl⟩ :=
                ih world rest (by simp [pulled, Pull.rest?]) given
              exact ⟨head :: all, gives_of_item pulled ofRest, rfl⟩

/-- What an item becomes in a run that goes on from its own branches. -/
inductive Extended (extend : Branch H → Action H (Run H (Item H))) :
    Item H → List (Item H) → Prop
  | branch {branch copy : Branch H} {more : List (Item H)}
      (copied : branch.fork.Results copy) (extended : (extend copy).Gives more) :
      Extended extend (.ok branch) (.ok branch :: more)
  | error {cause : Error} : Extended extend (.error cause) [.error cause]

theorem gives_thenExtend {extend : Branch H → Action H (Run H (Item H))}
    {run : Run H (Item H)} {items : List (Item H)}
    (gives : (run.thenExtend extend).Gives items) :
    ∃ heads groups, run.Gives heads ∧ List.Forall₂ (Extended extend) heads groups ∧
      items = groups.flatten := by
  obtain ⟨heads, groups, given, grouped, rfl⟩ := gives_flatMap gives
  refine ⟨heads, groups, given, grouped.imp ?_, rfl⟩
  intro head group ofHead
  cases head with
  | ok branch =>
      obtain ⟨copy, copied, ofCopy⟩ := Action.gives_bind ofHead
      obtain ⟨others, behind, rfl⟩ := gives_cons (Action.gives_pure ofCopy)
      exact .branch copied (gives_defer behind)
  | error cause =>
      rw [gives_one (Action.gives_pure ofHead)]
      exact .error

theorem collect_apply {ε : Type} (run : Run H (Except ε α)) (world : H.World) :
    run.collect world = (run.pull world).collect := by
  cases run
  rfl

theorem collect_cases {ε α : Type} (run : Run H (Except ε α)) (world : H.World) :
    (∃ results, (run.collect world).result = .ok results ∧ run.Gives (results.map .ok)) ∨
      ∃ items cause, run.Gives items ∧ .error cause ∈ items := by
  induction run using induct generalizing world with
  | step run ih =>
      cases pulled : run.pull world with
      | ended emitted left =>
          exact .inl ⟨[], by rw [collect_apply, pulled]; rfl, gives_of_ended pulled⟩
      | item head emitted left rest =>
          cases head with
          | error cause =>
              exact .inr ⟨_, cause, gives_of_item pulled (gives_toList rest left),
                List.mem_cons_self⟩
          | ok result =>
              rcases ih world rest (by simp [pulled, Pull.rest?]) left with
                ⟨results, collected, gives⟩ | ⟨items, cause, gives, member⟩
              · refine .inl ⟨result :: results, ?_, gives_of_item pulled gives⟩
                rw [collect_apply, pulled]
                simp [Pull.collect, collected, Except.map]
              · exact .inr ⟨_, cause, gives_of_item pulled gives,
                  List.mem_cons_of_mem _ member⟩

theorem gives_of_collect {ε α : Type} {run : Run H (Except ε α)} {world : H.World}
    {results : List α} (collected : (run.collect world).result = .ok results) :
    run.Gives (results.map .ok) := by
  induction run using induct generalizing world results with
  | step run ih =>
      rw [collect_apply] at collected
      cases pulled : run.pull world with
      | ended emitted left =>
          rw [pulled] at collected
          cases collected
          exact gives_of_ended pulled
      | item head emitted left rest =>
          rw [pulled] at collected
          cases head with
          | error cause => simp [Pull.collect] at collected
          | ok result =>
              cases others : (rest.collect left).result with
              | error cause => simp [Pull.collect, others, Except.map] at collected
              | ok more =>
                  simp only [Pull.collect, others, Except.map, Except.ok.injEq] at collected
                  rw [← collected]
                  exact gives_of_item pulled
                    (ih world rest (by simp [pulled, Pull.rest?]) others)

end Run

theorem Action.gives_toList (begin : Action H (Run H α)) (world later : H.World) :
    begin.Gives ((begin world).result.toList later).result :=
  ⟨(begin world).result, ⟨world, rfl⟩, Run.gives_toList _ later⟩

end Typeahead
