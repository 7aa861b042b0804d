import Typeahead.Run.Basic

namespace Typeahead

/-! Laws of lazy sequences.

Two runs are equal when every pull of them is, so runs can be compared by their
equations, and a run can be reasoned about item by item. -/

variable {H : Host} {α β : Type}

namespace Pull

@[simp] theorem after_nil (pulled : Pull H α) : pulled.after [] = pulled := by
  cases pulled <;> rfl

@[simp] theorem after_after (first second : List H.Value) (pulled : Pull H α) :
    (pulled.after second).after first = pulled.after (first ++ second) := by
  cases pulled <;> simp [after]

theorem append_after (emitted : List H.Value) (pulled : Pull H α) (second : Run H α) :
    (pulled.after emitted).append second = (pulled.append second).after emitted := by
  cases pulled with
  | ended earlier world => exact (after_after emitted earlier (second.pull world)).symm
  | item head earlier world rest => rfl

end Pull

namespace Run

theorem ext {first second : Run H α} (same : ∀ world, first.pull world = second.pull world) :
    first = second := by
  cases first with
  | suspended pull =>
      cases second with
      | suspended pull' => exact congrArg suspended (funext same)

mutual

/-- Reasons about a run by what its pulls leave to be pulled. -/
theorem induct {motive : Run H α → Prop}
    (step : ∀ run : Run H α,
      (∀ world rest, (run.pull world).rest? = some rest → motive rest) → motive run) :
    ∀ run, motive run
  | .suspended pull => step _ fun world => inductPull step (pull world)

theorem inductPull {motive : Run H α → Prop}
    (step : ∀ run : Run H α,
      (∀ world rest, (run.pull world).rest? = some rest → motive rest) → motive run) :
    ∀ (pulled : Pull H α) (rest : Run H α), pulled.rest? = some rest → motive rest
  | .ended _ _, _, found => by simp [Pull.rest?] at found
  | .item _ _ _ others, rest, found => by
      simp only [Pull.rest?, Option.some.injEq] at found
      exact found ▸ induct step others

end

@[simp] theorem pull_suspended (pull : H.World → Pull H α) (world : H.World) :
    (suspended pull).pull world = pull world := rfl

@[simp] theorem pull_empty (world : H.World) :
    (empty : Run H α).pull world = .ended [] world := rfl

@[simp] theorem pull_cons (head : α) (rest : Run H α) (world : H.World) :
    (cons head rest).pull world = .item head [] world rest := rfl

@[simp] theorem pull_defer (begin : Action H (Run H α)) (world : H.World) :
    (defer begin).pull world =
      ((begin world).result.pull (begin world).world).after (begin world).emitted := rfl

@[simp] theorem pull_append (first second : Run H α) (world : H.World) :
    (first.append second).pull world = (first.pull world).append second := by
  cases first
  rfl

@[simp] theorem pull_mapAction (f : α → Action H β) (run : Run H α) (world : H.World) :
    (run.mapAction f).pull world = (run.pull world).mapAction f := by
  cases run
  rfl

@[simp] theorem pull_filterMap (f : α → Option β) (run : Run H α) (world : H.World) :
    (run.filterMap f).pull world = (run.pull world).filterMap f := by
  cases run
  rfl

@[simp] theorem pull_flatMap (f : α → Action H (Run H β)) (run : Run H α) (world : H.World) :
    (run.flatMap f).pull world = (run.pull world).flatMap f := by
  cases run
  rfl

theorem toList_apply (run : Run H α) (world : H.World) :
    run.toList world = (run.pull world).toList := by
  cases run
  rfl

theorem delayed_eq (make : Unit → Run H α) : delayed make = make () :=
  ext fun _ => rfl

@[simp] theorem empty_append (run : Run H α) : empty.append run = run :=
  ext fun world => by simp [Pull.append]

@[simp] theorem cons_append (head : α) (rest second : Run H α) :
    (cons head rest).append second = cons head (rest.append second) :=
  ext fun world => by simp [Pull.append]

@[simp] theorem append_empty (run : Run H α) : run.append empty = run := by
  induction run using induct with
  | step run ih =>
      refine ext fun world => ?_
      rw [pull_append]
      cases pulled : run.pull world with
      | ended emitted left => simp [Pull.append, Pull.after]
      | item head emitted left rest =>
          simp [Pull.append, ih world rest (by simp [pulled, Pull.rest?])]

theorem append_assoc (first second third : Run H α) :
    (first.append second).append third = first.append (second.append third) := by
  induction first using induct with
  | step run ih =>
      refine ext fun world => ?_
      rw [pull_append, pull_append, pull_append]
      cases pulled : run.pull world with
      | ended emitted left => simp [Pull.append, Pull.append_after]
      | item head emitted left rest =>
          simp [Pull.append, ih world rest (by simp [pulled, Pull.rest?])]

theorem mapAction_mapAction {γ : Type} (f : α → Action H β) (g : β → Action H γ)
    (run : Run H α) : (run.mapAction f).mapAction g = run.mapAction fun item => f item >>= g := by
  induction run using induct with
  | step run ih =>
      refine ext fun world => ?_
      rw [pull_mapAction, pull_mapAction, pull_mapAction]
      cases pulled : run.pull world with
      | ended emitted left => rfl
      | item head emitted left rest =>
          simp [Pull.mapAction, Action.bind_def, ih world rest (by simp [pulled, Pull.rest?])]

/-! ### The items of a run -/

@[simp] theorem toList_empty : (empty : Run H α).toList = pure [] := rfl

@[simp] theorem toList_cons (head : α) (rest : Run H α) :
    (cons head rest).toList = (do return head :: (← rest.toList)) := by
  funext world
  simp [toList_apply, Pull.toList, Action.bind_def, Action.pure_def]

@[simp] theorem toList_ofList (items : List α) :
    (ofList items : Run H α).toList = pure items := by
  induction items with
  | nil => rfl
  | cons item items ih => simp [ofList, ih]

end Run

theorem Pull.toList_after (emitted : List H.Value) (pulled : Pull H α) :
    (pulled.after emitted).toList =
      { pulled.toList with emitted := emitted ++ pulled.toList.emitted } := by
  cases pulled <;> simp [Pull.after, Pull.toList]

namespace Run

@[simp] theorem toList_defer (begin : Action H (Run H α)) :
    (defer begin).toList = begin >>= toList := by
  funext world
  simp [toList_apply, Pull.toList_after, Action.bind_def]

theorem toList_append (first second : Run H α) :
    (first.append second).toList =
      (do return (← first.toList) ++ (← second.toList)) := by
  induction first using induct with
  | step run ih =>
      funext world
      rw [toList_apply, pull_append]
      simp only [Action.bind_def, Action.pure_def, toList_apply run]
      cases pulled : run.pull world with
      | ended emitted left =>
          simp [Pull.append, Pull.toList_after, Pull.toList, toList_apply]
      | item head emitted left rest =>
          have others := ih world rest (by simp [pulled, Pull.rest?])
          simp [Pull.append, Pull.toList, others, Action.bind_def, Action.map_def]

theorem toList_filterMap (f : α → Option β) (run : Run H α) :
    (run.filterMap f).toList = (do return (← run.toList).filterMap f) := by
  induction run using induct with
  | step run ih =>
      funext world
      rw [toList_apply, pull_filterMap]
      simp only [Action.bind_def, Action.pure_def, toList_apply run]
      cases pulled : run.pull world with
      | ended emitted left => simp [Pull.filterMap, Pull.toList]
      | item head emitted left rest =>
          have others := ih world rest (by simp [pulled, Pull.rest?])
          have otherItems : (Pull.filterMap f (rest.pull left)).toList =
              (filterMap f rest).toList left := by rw [toList_apply, pull_filterMap]
          cases found : f head <;>
            simp [Pull.filterMap, found, Pull.toList_after, Pull.toList, otherItems, others,
              Action.map_def]

end Run

end Typeahead
