import Typeahead.Proofs.Run.Gives

namespace Typeahead

/-! What a run emits while it is pulled to its end.

A trace keeps beside every item the values that were emitted since the item before
it, and the values emitted behind the last item.  As with `Gives`, each pull may find
any world. -/

variable {H : Host} {α β : Type}

structure Trace (H : Host) (α : Type) where
  items : List (List H.Value × α)
  left : List H.Value

namespace Trace

def heads (trace : Trace H α) : List α := trace.items.map Prod.snd

def empty : Trace H α := ⟨[], []⟩

/-- The values that were emitted before a run was pulled go to its first item. -/
def after (earlier : List H.Value) : Trace H α → Trace H α
  | ⟨[], left⟩ => ⟨[], earlier ++ left⟩
  | ⟨(emitted, head) :: others, left⟩ => ⟨(earlier ++ emitted, head) :: others, left⟩

def append (first second : Trace H α) : Trace H α where
  items := first.items ++ (second.after first.left).items
  left := (second.after first.left).left

def concat (traces : List (Trace H α)) : Trace H α := traces.foldr append empty

@[simp] theorem heads_after (earlier : List H.Value) (trace : Trace H α) :
    (trace.after earlier).heads = trace.heads := by
  obtain ⟨items, left⟩ := trace
  cases items <;> rfl

@[simp] theorem after_nil (trace : Trace H α) : trace.after [] = trace := by
  obtain ⟨items, left⟩ := trace
  cases items <;> rfl

theorem after_after (first second : List H.Value) (trace : Trace H α) :
    (trace.after second).after first = trace.after (first ++ second) := by
  obtain ⟨items, left⟩ := trace
  cases items <;> simp [after]

theorem append_after (earlier : List H.Value) (first second : Trace H α) :
    (first.append second).after earlier = (first.after earlier).append second := by
  obtain ⟨items, left⟩ := first
  cases items with
  | nil => exact after_after earlier left second
  | cons item others => rfl

theorem append_of_left {first second : Trace H α} (none_left : first.left = []) :
    first.append second = ⟨first.items ++ second.items, second.left⟩ := by
  simp [append, none_left]

/-- Hands values to the items that take them, beginning with those that are waiting. -/
def handed (takes : α → Bool) (waiting : List H.Value) :
    List (List H.Value × α) → List (α × List H.Value)
  | [] => []
  | (emitted, head) :: others =>
      if takes head then (head, waiting ++ emitted) :: handed takes [] others
      else (head, []) :: handed takes (waiting ++ emitted) others

theorem handed_fst (takes : α → Bool) (waiting : List H.Value)
    (items : List (List H.Value × α)) :
    (handed takes waiting items).map Prod.fst = items.map Prod.snd := by
  induction items generalizing waiting with
  | nil => rfl
  | cons item others ih =>
      obtain ⟨emitted, head⟩ := item
      rw [handed]
      split <;> simp [ih]

/-- Values that wait for a run are handed out like those that it emits first. -/
theorem handed_after (takes : α → Bool) (earlier : List H.Value) (trace : Trace H α) :
    handed takes [] (trace.after earlier).items = handed takes earlier trace.items := by
  obtain ⟨items, left⟩ := trace
  cases items <;> rfl

end Trace

mutual

def Run.Traces : Run H α → Trace H α → Prop
  | .suspended pull, trace => ∃ world, (pull world).Traces trace

def Pull.Traces : Pull H α → Trace H α → Prop
  | .ended emitted _, trace => trace = ⟨[], emitted⟩
  | .item head emitted _ rest, trace =>
      ∃ others, rest.Traces others ∧ trace = ⟨(emitted, head) :: others.items, others.left⟩

end

/-- The trace of a run that an action begins. -/
def Action.Traces (begin : Action H (Run H α)) (trace : Trace H α) : Prop :=
  ∃ world others, (begin world).result.Traces others ∧
    trace = others.after (begin world).emitted

namespace Action

theorem traces_pure {run : Run H α} {trace : Trace H α}
    (traces : Traces (pure run : Action H (Run H α)) trace) : run.Traces trace := by
  obtain ⟨world, others, traced, rfl⟩ := traces
  simpa [pure_def] using traced

theorem traces_bind {action : Action H β} {next : β → Action H (Run H α)} {trace : Trace H α}
    (traces : (action >>= next).Traces trace) :
    ∃ world others, (next (action world).result).Traces others ∧
      trace = others.after (action world).emitted := by
  obtain ⟨world, others, traced, rfl⟩ := traces
  exact ⟨world, _, ⟨_, others, traced, rfl⟩, (Trace.after_after _ _ others).symm⟩

end Action

theorem Pull.traces_after {earlier : List H.Value} {pulled : Pull H α} {trace : Trace H α}
    (traces : (pulled.after earlier).Traces trace) :
    ∃ others, pulled.Traces others ∧ trace = others.after earlier := by
  cases pulled with
  | ended emitted world =>
      rw [after, Traces] at traces
      exact ⟨⟨[], emitted⟩, rfl, traces⟩
  | item head emitted world rest =>
      obtain ⟨others, given, rfl⟩ := traces
      exact ⟨_, ⟨others, given, rfl⟩, rfl⟩

namespace Run

theorem traces_iff {run : Run H α} {trace : Trace H α} :
    run.Traces trace ↔ ∃ world, (run.pull world).Traces trace := by
  cases run
  rfl

theorem traces_of_ended {run : Run H α} {world left : H.World} {emitted : List H.Value}
    (pulled : run.pull world = .ended emitted left) : run.Traces ⟨[], emitted⟩ :=
  traces_iff.mpr ⟨world, by rw [pulled]; rfl⟩

theorem traces_of_item {run rest : Run H α} {world left : H.World} {emitted : List H.Value}
    {head : α} {others : Trace H α} (pulled : run.pull world = .item head emitted left rest)
    (traced : rest.Traces others) : run.Traces ⟨(emitted, head) :: others.items, others.left⟩ :=
  traces_iff.mpr ⟨world, by rw [pulled]; exact ⟨others, traced, rfl⟩⟩

theorem gives_of_traces {run : Run H α} {trace : Trace H α} (traces : run.Traces trace) :
    run.Gives trace.heads := by
  induction run using induct generalizing trace with
  | step run ih =>
      obtain ⟨world, given⟩ := traces_iff.mp traces
      cases pulled : run.pull world with
      | ended emitted left =>
          rw [pulled] at given
          cases given
          exact gives_of_ended pulled
      | item head emitted left rest =>
          rw [pulled] at given
          obtain ⟨others, given, rfl⟩ := given
          exact gives_of_item pulled (ih world rest (by simp [pulled, Pull.rest?]) given)

end Run

theorem Action.gives_of_traces {begin : Action H (Run H α)} {trace : Trace H α}
    (traces : begin.Traces trace) : begin.Gives trace.heads := by
  obtain ⟨world, others, traced, rfl⟩ := traces
  rw [Trace.heads_after]
  exact ⟨_, ⟨world, rfl⟩, Run.gives_of_traces traced⟩

namespace Run

theorem traces_empty {trace : Trace H α} (traces : (empty : Run H α).Traces trace) :
    trace = .empty := by
  obtain ⟨_, given⟩ := traces
  exact given

theorem traces_cons {head : α} {rest : Run H α} {trace : Trace H α}
    (traces : (cons head rest).Traces trace) :
    ∃ others, rest.Traces others ∧ trace = ⟨([], head) :: others.items, others.left⟩ := by
  obtain ⟨_, given⟩ := traces
  exact given

theorem traces_defer {begin : Action H (Run H α)} {trace : Trace H α}
    (traces : (defer begin).Traces trace) : begin.Traces trace := by
  obtain ⟨world, given⟩ := traces
  obtain ⟨others, traced, rfl⟩ := Pull.traces_after given
  exact ⟨world, others, traces_iff.mpr ⟨_, traced⟩, rfl⟩

theorem traces_append {first second : Run H α} {trace : Trace H α}
    (traces : (first.append second).Traces trace) :
    ∃ front behind, first.Traces front ∧ second.Traces behind ∧ trace = front.append behind := by
  induction first using induct generalizing trace with
  | step run ih =>
      obtain ⟨world, given⟩ := traces_iff.mp traces
      rw [pull_append] at given
      cases pulled : run.pull world with
      | ended emitted left =>
          rw [pulled] at given
          obtain ⟨others, traced, rfl⟩ := Pull.traces_after given
          exact ⟨_, others, traces_of_ended pulled, traces_iff.mpr ⟨_, traced⟩, rfl⟩
      | item head emitted left rest =>
          rw [pulled] at given
          obtain ⟨others, given, rfl⟩ := given
          obtain ⟨front, behind, ofRest, ofSecond, rfl⟩ :=
            ih world rest (by simp [pulled, Pull.rest?]) given
          exact ⟨_, behind, traces_of_item pulled ofRest, ofSecond, rfl⟩

theorem traces_concatMap {f : β → Action H (Run H α)} {members : List β} {trace : Trace H α}
    (traces : (concatMap f members).Traces trace) :
    ∃ groups, List.Forall₂ (fun member group => (f member).Traces group) members groups ∧
      trace = .concat groups := by
  induction members generalizing trace with
  | nil => exact ⟨[], .nil, traces_empty traces⟩
  | cons member members ih =>
      obtain ⟨world, begun, given, rfl⟩ := Action.traces_bind (traces_defer traces)
      obtain ⟨group, behind, ofMember, ofOthers, rfl⟩ :=
        traces_append (Action.traces_pure given)
      obtain ⟨groups, grouped, rfl⟩ := ih ofOthers
      exact ⟨_ :: groups, .cons ⟨world, group, ofMember, rfl⟩ grouped,
        Trace.append_after _ group _⟩

theorem traces_mapAction {f : α → Action H β} {run : Run H α} {trace : Trace H β}
    (traces : (run.mapAction f).Traces trace) :
    ∃ before, run.Traces before ∧ trace.left = before.left ∧
      List.Forall₂ (fun item changed => ∃ world, (f item.2 world).result = changed.2 ∧
        item.1 ++ (f item.2 world).emitted = changed.1) before.items trace.items := by
  induction run using induct generalizing trace with
  | step run ih =>
      obtain ⟨world, given⟩ := traces_iff.mp traces
      rw [pull_mapAction] at given
      cases pulled : run.pull world with
      | ended emitted left =>
          rw [pulled] at given
          cases given
          exact ⟨_, traces_of_ended pulled, rfl, .nil⟩
      | item head emitted left rest =>
          rw [pulled] at given
          obtain ⟨others, given, rfl⟩ := given
          obtain ⟨before, ofRest, same, changed⟩ :=
            ih world rest (by simp [pulled, Pull.rest?]) given
          exact ⟨_, traces_of_item pulled ofRest, same, .cons ⟨left, rfl, rfl⟩ changed⟩

/-- The fallback is what a run without items ends with. -/
theorem traces_orElse {run : Run H α} {fallback : Option α} {trace : Trace H α}
    (traces : (run.orElse fallback).Traces trace) :
    (run.Traces trace ∧ (trace.items = [] → fallback = none)) ∨
      ∃ item emitted, run.Traces ⟨[], emitted⟩ ∧ fallback = some item ∧
        trace = ⟨[(emitted, item)], []⟩ := by
  obtain ⟨world, given⟩ := traces
  cases pulled : run.pull world with
  | ended emitted left =>
      have ended := traces_of_ended pulled
      cases fallback with
      | none =>
          simp only [pulled] at given
          cases given
          exact .inl ⟨ended, fun _ => rfl⟩
      | some item =>
          simp only [pulled] at given
          obtain ⟨others, given, rfl⟩ := given
          rw [traces_empty given]
          exact .inr ⟨item, emitted, ended, rfl, rfl⟩
  | item head emitted left rest =>
      simp only [pulled] at given
      obtain ⟨others, given, rfl⟩ := given
      exact .inl ⟨traces_of_item pulled given, by simp⟩

/-- Collected values are handed out in the order in which they were emitted. -/
theorem gives_collecting {takes : α → Bool} {waiting : List H.Value} {run : Run H α}
    {items : List (α × List H.Value)} (gives : (run.collecting takes waiting).Gives items) :
    ∃ trace, run.Traces trace ∧ items = Trace.handed takes waiting trace.items := by
  induction run using induct generalizing waiting items with
  | step run ih =>
      obtain ⟨world, given⟩ := gives_iff.mp gives
      have collected : (run.collecting takes waiting).pull world =
          (run.pull world).collecting takes waiting := by
        cases run
        rfl
      rw [collected] at given
      cases pulled : run.pull world with
      | ended emitted left =>
          rw [pulled] at given
          cases given
          exact ⟨_, traces_of_ended pulled, rfl⟩
      | item head emitted left rest =>
          rw [pulled] at given
          simp only [Pull.collecting] at given
          have shorter := @ih world rest (by simp [pulled, Pull.rest?])
          split at given
          · rename_i takes_it
            obtain ⟨others, given, rfl⟩ := given
            obtain ⟨trace, ofRest, rfl⟩ := shorter given
            exact ⟨_, traces_of_item pulled ofRest, by simp [Trace.handed, takes_it]⟩
          · rename_i leaves_it
            obtain ⟨others, given, rfl⟩ := given
            obtain ⟨trace, ofRest, rfl⟩ := shorter given
            exact ⟨_, traces_of_item pulled ofRest, by simp [Trace.handed, leaves_it]⟩

/-! ### In given worlds -/

/-- What the pulls emit and yield that find the given worlds, one after the other. -/
def traceIn : Run H α → List H.World → Trace H α
  | _, [] => .empty
  | run, world :: later =>
      match run.pull world with
      | .ended emitted _ => ⟨[], emitted⟩
      | .item head emitted _ rest =>
          let others := rest.traceIn later
          ⟨(emitted, head) :: others.items, others.left⟩

section

variable {run rest : Run H α} {world left : H.World} {emitted : List H.Value} {head : α}

theorem traceIn_ended (pulled : run.pull world = .ended emitted left) (later : List H.World) :
    run.traceIn (world :: later) = ⟨[], emitted⟩ := by
  rw [traceIn, pulled]

theorem traceIn_item (pulled : run.pull world = .item head emitted left rest)
    (later : List H.World) :
    run.traceIn (world :: later) =
      ⟨(emitted, head) :: (rest.traceIn later).items, (rest.traceIn later).left⟩ := by
  rw [traceIn, pulled]

end

theorem traceIn_empty (worlds : List H.World) : (empty : Run H α).traceIn worlds = .empty := by
  cases worlds <;> rfl

theorem traceIn_collecting (takes : α → Bool) (waiting : List H.Value) (run : Run H α)
    (worlds : List H.World) :
    (run.collecting takes waiting).traceIn worlds =
      ⟨(Trace.handed takes waiting (run.traceIn worlds).items).map fun pair => ([], pair), []⟩ := by
  induction worlds generalizing run waiting with
  | nil => rfl
  | cons world later ih =>
      have collected : (run.collecting takes waiting).pull world =
          (run.pull world).collecting takes waiting := by
        cases run
        rfl
      cases pulled : run.pull world with
      | ended emitted left =>
          rw [pulled] at collected
          rw [traceIn_ended collected, traceIn_ended pulled]
          rfl
      | item head emitted left rest =>
          rw [pulled, Pull.collecting] at collected
          rw [traceIn_item pulled]
          split at collected
          · rename_i takes_it
            rw [traceIn_item collected, ih, Trace.handed, if_pos takes_it]
            rfl
          · rename_i leaves_it
            rw [traceIn_item collected, ih, Trace.handed, if_neg leaves_it]
            rfl

theorem traceIn_mapAction (f : α → Action H β) (run : Run H α) (worlds : List H.World) :
    ((run.mapAction f).traceIn worlds).left = (run.traceIn worlds).left ∧
      List.Forall₂ (fun item changed => ∃ world, (f item.2 world).result = changed.2 ∧
        item.1 ++ (f item.2 world).emitted = changed.1)
        (run.traceIn worlds).items ((run.mapAction f).traceIn worlds).items := by
  induction worlds generalizing run with
  | nil => exact ⟨rfl, .nil⟩
  | cons world later ih =>
      have mapped := pull_mapAction f run world
      cases pulled : run.pull world with
      | ended emitted left =>
          rw [pulled] at mapped
          rw [traceIn_ended mapped, traceIn_ended pulled]
          exact ⟨rfl, .nil⟩
      | item head emitted left rest =>
          rw [pulled] at mapped
          rw [traceIn_item mapped, traceIn_item pulled]
          exact ⟨(ih rest).1, .cons ⟨left, rfl, rfl⟩ (ih rest).2⟩

theorem traceIn_orElse (run : Run H α) (fallback : Option α) (worlds : List H.World) :
    (run.orElse fallback).traceIn worlds = run.traceIn worlds ∨
      ∃ item emitted, fallback = some item ∧ run.traceIn worlds = ⟨[], emitted⟩ ∧
        (run.orElse fallback).traceIn worlds = ⟨[(emitted, item)], []⟩ := by
  cases worlds with
  | nil => exact .inl rfl
  | cons world later =>
      cases pulled : run.pull world with
      | ended emitted left =>
          cases fallback with
          | none =>
              have chosen : (run.orElse none).pull world = .ended emitted left := by
                simp [orElse, pulled]
              exact .inl (by rw [traceIn_ended chosen, traceIn_ended pulled])
          | some item =>
              have chosen : (run.orElse (some item)).pull world =
                  .item item emitted left empty := by simp [orElse, pulled]
              refine .inr ⟨item, emitted, rfl, traceIn_ended pulled later, ?_⟩
              rw [traceIn_item chosen, traceIn_empty]
              rfl
      | item head emitted left rest =>
          have chosen : (run.orElse fallback).pull world = .item head emitted left rest := by
            simp [orElse, pulled]
          exact .inl (by rw [traceIn_item chosen, traceIn_item pulled])

end Run

end Typeahead
