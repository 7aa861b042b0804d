import Typeahead.Proofs.Run.Gives

namespace Typeahead

/-! Two programs side by side.

Two actions agree along a relation when it holds of all their answers, and two runs
when it holds item by item of whatever the two give.  Each of them may find any
world, so agreement is a matter of what the programs are and not of when they are
run.  Every way of making actions and runs keeps agreement. -/

variable {H : Host} {α β γ δ : Type} {R : α → β → Prop} {S : γ → δ → Prop}

/-- What two lists of related members lead to is related when it is at every place. -/
theorem forall₂_across {P : γ → α → Prop} {Q : δ → β → Prop} {heads : List γ} {heads' : List δ}
    {items : List α} {items' : List β} (related : List.Forall₂ S heads heads')
    (front : List.Forall₂ P heads items) (behind : List.Forall₂ Q heads' items')
    (both : ∀ head head' item item', S head head' → P head item → Q head' item' → R item item') :
    List.Forall₂ R items items' := by
  induction related generalizing items items' with
  | nil =>
      cases front
      cases behind
      exact .nil
  | cons first _ ih =>
      cases front with
      | cons item others =>
          cases behind with
          | cons item' others' => exact .cons (both _ _ _ _ first item item') (ih others others')

theorem forall₂_of_common {R : α → β → Prop} {S : α → γ → Prop} {T : β → γ → Prop}
    {shared : List α} {left : List β} {right : List γ} (first : List.Forall₂ R shared left)
    (second : List.Forall₂ S shared right) (both : ∀ a b c, R a b → S a c → T b c) :
    List.Forall₂ T left right := by
  refine forall₂_across (List.forall₂_same.mpr fun _ _ => rfl) first second ?_
  rintro a _ b c rfl
  exact both a b c

def Action.Agree (R : α → β → Prop) (action : Action H α) (action' : Action H β) : Prop :=
  ∀ result result', action.Results result → action'.Results result' → R result result'

def Run.Agree (R : α → β → Prop) (run : Run H α) (run' : Run H β) : Prop :=
  ∀ items items', run.Gives items → run'.Gives items' → List.Forall₂ R items items'

namespace Action

theorem agree_pure {result : α} {result' : β} (related : R result result') :
    Agree R (pure result : Action H α) (pure result') := by
  intro answer answer' answered answered'
  rw [results_pure answered, results_pure answered']
  exact related

theorem agree_bind {action : Action H γ} {action' : Action H δ} {next : γ → Action H α}
    {next' : δ → Action H β} (first : action.Agree S action')
    (further : ∀ middle middle', S middle middle' → (next middle).Agree R (next' middle')) :
    (action >>= next).Agree R (action' >>= next') := by
  intro result result' answered answered'
  obtain ⟨middle, before, after⟩ := results_bind answered
  obtain ⟨middle', before', after'⟩ := results_bind answered'
  exact further middle middle' (first middle middle' before before') result result' after after'

theorem agree_map {action : Action H γ} {action' : Action H δ} {f : γ → α} {f' : δ → β}
    (first : action.Agree S action')
    (further : ∀ middle middle', S middle middle' → R (f middle) (f' middle')) :
    Agree R (do return f (← action)) (do return f' (← action')) :=
  agree_bind first fun middle middle' related => agree_pure (further middle middle' related)

/-- Actions that begin agreeing runs. -/
theorem Agree.gives {begin : Action H (Run H α)} {begin' : Action H (Run H β)}
    {items : List α} {items' : List β} (agree : begin.Agree (Run.Agree R) begin')
    (gives : begin.Gives items) (gives' : begin'.Gives items') : List.Forall₂ R items items' := by
  obtain ⟨run, begun, given⟩ := gives
  obtain ⟨run', begun', given'⟩ := gives'
  exact agree run run' begun begun' items items' given given'

end Action

namespace Run

variable {run : Run H γ} {run' : Run H δ}

theorem agree_empty : (empty : Run H α).Agree R (empty : Run H β) := by
  intro items items' gives gives'
  rw [gives_empty gives, gives_empty gives']
  exact .nil

theorem agree_cons {head : α} {head' : β} {rest : Run H α} {rest' : Run H β}
    (first : R head head') (others : rest.Agree R rest') :
    (cons head rest).Agree R (cons head' rest') := by
  intro items items' gives gives'
  obtain ⟨more, given, rfl⟩ := gives_cons gives
  obtain ⟨more', given', rfl⟩ := gives_cons gives'
  exact .cons first (others more more' given given')

theorem agree_one {item : α} {item' : β} (related : R item item') :
    (one item : Run H α).Agree R (one item') :=
  agree_cons related agree_empty

theorem agree_ofList {members : List α} {members' : List β}
    (related : List.Forall₂ R members members') :
    (ofList members : Run H α).Agree R (ofList members') := by
  intro items items' gives gives'
  rw [gives_ofList gives, gives_ofList gives']
  exact related

theorem agree_defer {begin : Action H (Run H α)} {begin' : Action H (Run H β)}
    (agree : begin.Agree (Run.Agree R) begin') : (defer begin).Agree R (defer begin') :=
  fun _ _ gives gives' => agree.gives (gives_defer gives) (gives_defer gives')

theorem agree_append {first second : Run H α} {first' second' : Run H β}
    (front : first.Agree R first') (behind : second.Agree R second') :
    (first.append second).Agree R (first'.append second') := by
  intro items items' gives gives'
  obtain ⟨left, right, ofFirst, ofSecond, rfl⟩ := gives_append gives
  obtain ⟨left', right', ofFirst', ofSecond', rfl⟩ := gives_append gives'
  exact List.rel_append (front left left' ofFirst ofFirst') (behind right right' ofSecond ofSecond')

theorem agree_mapAction {f : γ → Action H α} {f' : δ → Action H β} (agree : run.Agree S run')
    (changed : ∀ head head', S head head' → (f head).Agree R (f' head')) :
    (run.mapAction f).Agree R (run'.mapAction f') := by
  intro items items' gives gives'
  obtain ⟨heads, given, answered⟩ := gives_mapAction gives
  obtain ⟨heads', given', answered'⟩ := gives_mapAction gives'
  exact forall₂_across (agree heads heads' given given') answered answered'
    fun head head' item item' related => changed head head' related item item'

theorem agree_filterMap {f : γ → Option α} {f' : δ → Option β} (agree : run.Agree S run')
    (changed : ∀ head head', S head head' → Option.Rel R (f head) (f' head')) :
    (run.filterMap f).Agree R (run'.filterMap f') := by
  intro items items' gives gives'
  obtain ⟨heads, given, rfl⟩ := gives_filterMap gives
  obtain ⟨heads', given', rfl⟩ := gives_filterMap gives'
  exact List.rel_filterMap (fun _ _ related => changed _ _ related)
    (agree heads heads' given given')

theorem agree_flatMap {f : γ → Action H (Run H α)} {f' : δ → Action H (Run H β)}
    (agree : run.Agree S run')
    (further : ∀ head head', S head head' → (f head).Agree (Run.Agree R) (f' head')) :
    (run.flatMap f).Agree R (run'.flatMap f') := by
  intro items items' gives gives'
  obtain ⟨heads, groups, given, grouped, rfl⟩ := gives_flatMap gives
  obtain ⟨heads', groups', given', grouped', rfl⟩ := gives_flatMap gives'
  refine List.rel_flatten (forall₂_across (agree heads heads' given given') grouped grouped' ?_)
  intro head head' group group' related ofHead ofHead'
  exact (further head head' related).gives ofHead ofHead'

theorem agree_concatMap {f : γ → Action H (Run H α)} {f' : δ → Action H (Run H β)}
    {members : List γ} {members' : List δ} (related : List.Forall₂ S members members')
    (further : ∀ member member', S member member' →
      (f member).Agree (Run.Agree R) (f' member')) :
    (concatMap f members).Agree R (concatMap f' members') := by
  intro items items' gives gives'
  obtain ⟨groups, grouped, rfl⟩ := gives_concatMap gives
  obtain ⟨groups', grouped', rfl⟩ := gives_concatMap gives'
  refine List.rel_flatten (forall₂_across related grouped grouped' ?_)
  intro member member' group group' both ofMember ofMember'
  exact (further member member' both).gives ofMember ofMember'

theorem agree_orElse {run : Run H α} {run' : Run H β} {fallback : Option α}
    {fallback' : Option β} (agree : run.Agree R run') (other : Option.Rel R fallback fallback') :
    (run.orElse fallback).Agree R (run'.orElse fallback') := by
  intro items items' gives gives'
  rcases gives_orElse gives with ⟨given, kept⟩ | ⟨item, given, rfl, rfl⟩ <;>
    rcases gives_orElse gives' with ⟨given', kept'⟩ | ⟨item', given', rfl, rfl⟩
  · exact agree items items' given given'
  · -- one run gives nothing, so neither does the other, whose fallback is there as well
    cases agree items [] given given'
    rw [kept rfl] at other
    contradiction
  · cases agree [] items' given given'
    rw [kept' rfl] at other
    contradiction
  · cases other with
    | some related => exact .cons related .nil

theorem agree_take {run : Run H α} {run' : Run H β} (agree : run.Agree R run') (limit : Nat) :
    (run.take limit).Agree R (run'.take limit) := by
  intro items items' gives gives'
  obtain ⟨all, given, rfl⟩ := gives_take gives
  obtain ⟨all', given', rfl⟩ := gives_take gives'
  exact List.forall₂_take limit (agree all all' given given')

theorem rel_upTo {counts : α → Bool} {counts' : β → Bool}
    (same : ∀ item item', R item item' → counts item = counts' item') {items : List α}
    {items' : List β} (related : List.Forall₂ R items items') (cap : Nat) :
    List.Forall₂ R (upTo counts cap items) (upTo counts' cap items') := by
  induction related generalizing cap with
  | nil => cases cap <;> exact .nil
  | @cons item item' _ _ first _ ih =>
      cases cap with
      | zero => exact .nil
      | succ cap =>
          rw [upTo, upTo, same item item' first]
          exact .cons first (ih _)

theorem agree_capped {run : Run H α} {run' : Run H β} {counts : α → Bool} {counts' : β → Bool}
    (agree : run.Agree R run') (same : ∀ item item', R item item' → counts item = counts' item')
    (cap : Nat) : (run.capped counts cap).Agree R (run'.capped counts' cap) := by
  intro items items' gives gives'
  obtain ⟨all, given, rfl⟩ := gives_capped gives
  obtain ⟨all', given', rfl⟩ := gives_capped gives'
  exact rel_upTo same (agree all all' given given') cap

theorem agree_toList {run : Run H α} {run' : Run H β} (agree : run.Agree R run') :
    run.toList.Agree (List.Forall₂ R) run'.toList := by
  rintro _ _ ⟨world, rfl⟩ ⟨world', rfl⟩
  exact agree _ _ (gives_toList run world) (gives_toList run' world')

end Run

end Typeahead
