import Typeahead.Proofs.Run.Agreement
import Typeahead.Proofs.Run.Traces

namespace Typeahead

/-! A run beside one that emits what the other keeps.

The items of the first run are settled by a trace of the second when each of them is
related to its counterpart together with the values emitted for that, and nothing is
emitted behind the last item.  Programs that are put together by appending runs keep
this, as every value is followed at once by the item it is meant for. -/

variable {H : Host} {α β γ δ : Type} {R : List H.Value → α → β → Prop} {S : γ → δ → Prop}

namespace Trace

theorem items_eq_nil_of_after {earlier : List H.Value} {trace : Trace H α}
    (nothing : (trace.after earlier).items = []) : trace.items = [] := by
  obtain ⟨items, left⟩ := trace
  cases items with
  | nil => rfl
  | cons entry others => contradiction

theorem forall₂_after {P : α → β → Prop} {first : Trace H α} {second : Trace H β}
    (related : List.Forall₂ (fun entry entry' => entry.1 = entry'.1 ∧ P entry.2 entry'.2)
      first.items second.items)
    (left : first.left = second.left) (earlier : List H.Value) :
    List.Forall₂ (fun entry entry' => entry.1 = entry'.1 ∧ P entry.2 entry'.2)
        (first.after earlier).items (second.after earlier).items ∧
      (first.after earlier).left = (second.after earlier).left := by
  obtain ⟨items, behind⟩ := first
  obtain ⟨items', behind'⟩ := second
  cases related with
  | nil => exact ⟨.nil, congrArg (earlier ++ ·) left⟩
  | cons both others => exact ⟨.cons ⟨congrArg (earlier ++ ·) both.1, both.2⟩ others, left⟩

end Trace

structure Trace.Settles (R : List H.Value → α → β → Prop) (trace : Trace H β) (items : List α) :
    Prop where
  items : List.Forall₂ (fun item entry => R entry.1 item entry.2) items trace.items
  left : trace.left = []

namespace Trace.Settles

theorem empty : (Trace.empty : Trace H β).Settles R [] := ⟨.nil, rfl⟩

theorem append {first second : Trace H β} {front behind : List α}
    (before : first.Settles R front) (after : second.Settles R behind) :
    (first.append second).Settles R (front ++ behind) := by
  rw [append_of_left before.left]
  exact ⟨List.rel_append before.items after.items, after.left⟩

theorem concat {traces : List (Trace H β)} {groups : List (List α)}
    (settled : List.Forall₂ (fun group trace => trace.Settles R group) groups traces) :
    (Trace.concat traces).Settles R groups.flatten := by
  induction settled with
  | nil => exact empty
  | cons first _ ih => exact first.append ih

end Trace.Settles

/-- Nothing is handed to the enclosing definition. -/
def Action.Silent (action : Action H α) : Prop := ∀ world, (action world).emitted = []

/-- The second run forwards for the first, the `earlier` values going to its first
item. -/
def Run.Forwards (R : List H.Value → α → β → Prop) (earlier : List H.Value) (run : Run H α)
    (run' : Run H β) : Prop :=
  ∀ items trace, run.Gives items → run'.Traces trace → (trace.after earlier).Settles R items

/-- What is emitted when the second run is begun goes to its first item. -/
def Action.Forwards (R : List H.Value → α → β → Prop) (begin : Action H (Run H α))
    (begin' : Action H (Run H β)) : Prop :=
  ∀ run world, begin.Results run → run.Forwards R (begin' world).emitted (begin' world).result

namespace Action

theorem Forwards.settles {begin : Action H (Run H α)} {begin' : Action H (Run H β)}
    {items : List α} {trace : Trace H β} (forwards : begin.Forwards R begin')
    (gives : begin.Gives items) (traces : begin'.Traces trace) : trace.Settles R items := by
  obtain ⟨run, begun, given⟩ := gives
  obtain ⟨world, others, traced, rfl⟩ := traces
  exact forwards run world begun items others given traced

theorem forwards_pure {run : Run H α} {run' : Run H β} (forwards : run.Forwards R [] run') :
    Forwards R (pure run) (pure run') := by
  intro only world begun
  rw [results_pure begun]
  exact forwards

/-- What is done silently beforehand goes to no item. -/
theorem forwards_bind {action : Action H γ} {action' : Action H δ}
    {next : γ → Action H (Run H α)} {next' : δ → Action H (Run H β)}
    (agree : action.Agree S action') (silent : action'.Silent)
    (further : ∀ middle middle', S middle middle' → (next middle).Forwards R (next' middle')) :
    Forwards R (action >>= next) (action' >>= next') := by
  intro run world begun
  obtain ⟨middle, before, after⟩ := results_bind begun
  have related := agree middle (action' world).result before ⟨world, rfl⟩
  rw [bind_def, silent world]
  exact further middle _ related run (action' world).world after

/-- Runs that are begun and then changed. -/
theorem forwards_map {T : List H.Value → γ → δ → Prop} {begin : Action H (Run H γ)}
    {begin' : Action H (Run H δ)} {f : Run H γ → Run H α} {f' : Run H δ → Run H β}
    (forwards : begin.Forwards T begin')
    (changed : ∀ earlier run run', run.Forwards T earlier run' →
      (f run).Forwards R earlier (f' run')) :
    Forwards R (do return f (← begin)) (do return f' (← begin')) := by
  intro run world begun
  obtain ⟨before, first, made⟩ := results_bind begun
  rw [results_pure made, bind_def, pure_def, List.append_nil]
  exact changed _ before _ (forwards before world first)

end Action

namespace Run

theorem forwards_empty : (empty : Run H α).Forwards R [] (empty : Run H β) := by
  intro items trace gives traces
  rw [gives_empty gives, traces_empty traces]
  exact .empty

theorem forwards_cons {earlier : List H.Value} {head : α} {head' : β} {rest : Run H α}
    {rest' : Run H β} (first : R earlier head head') (others : rest.Forwards R [] rest') :
    (cons head rest).Forwards R earlier (cons head' rest') := by
  intro items trace gives traces
  obtain ⟨more, given, rfl⟩ := gives_cons gives
  obtain ⟨behind, traced, rfl⟩ := traces_cons traces
  have settled := others more behind given traced
  rw [Trace.after_nil] at settled
  refine ⟨.cons ?_ settled.items, settled.left⟩
  rwa [List.append_nil]

theorem forwards_one {earlier : List H.Value} {item : α} {item' : β}
    (related : R earlier item item') : (one item : Run H α).Forwards R earlier (one item') :=
  forwards_cons related forwards_empty

theorem forwards_defer {begin : Action H (Run H α)} {begin' : Action H (Run H β)}
    (forwards : begin.Forwards R begin') : (defer begin).Forwards R [] (defer begin') := by
  intro items trace gives traces
  rw [Trace.after_nil]
  exact forwards.settles (gives_defer gives) (traces_defer traces)

theorem forwards_concatMap {f : γ → Action H (Run H α)} {f' : δ → Action H (Run H β)}
    {members : List γ} {members' : List δ} (related : List.Forall₂ S members members')
    (further : ∀ member member', S member member' → (f member).Forwards R (f' member')) :
    (concatMap f members).Forwards R [] (concatMap f' members') := by
  intro items trace gives traces
  obtain ⟨groups, grouped, rfl⟩ := gives_concatMap gives
  obtain ⟨parts, grouped', rfl⟩ := traces_concatMap traces
  rw [Trace.after_nil]
  refine .concat (forall₂_across related grouped grouped' ?_)
  intro member member' group part both ofMember ofMember'
  exact (further member member' both).settles ofMember ofMember'

theorem forwards_mapAction {T : List H.Value → γ → δ → Prop} {earlier : List H.Value}
    {run : Run H γ} {run' : Run H δ} {f : γ → Action H α} {f' : δ → Action H β}
    (forwards : run.Forwards T earlier run') (silent : ∀ head, (f' head).Silent)
    (changed : ∀ emitted head head', T emitted head head' →
      (f head).Agree (R emitted) (f' head')) :
    (run.mapAction f).Forwards R earlier (run'.mapAction f') := by
  intro items trace gives traces
  obtain ⟨heads, given, answered⟩ := gives_mapAction gives
  obtain ⟨before, traced, left, answered'⟩ := traces_mapAction traces
  have settled := forwards heads before given traced
  have kept : List.Forall₂ (fun entry entry' => entry.1 = entry'.1 ∧
      (f' entry.2).Results entry'.2) before.items trace.items := by
    refine answered'.imp ?_
    rintro ⟨emitted, head'⟩ ⟨emitted', item'⟩ ⟨world, result, together⟩
    rw [silent head' world, List.append_nil] at together
    exact ⟨together, world, result⟩
  obtain ⟨kept, left⟩ :=
    Trace.forall₂_after (P := fun head item => (f' head).Results item) kept left.symm earlier
  refine ⟨forall₂_across settled.items answered kept ?_, left.symm.trans settled.left⟩
  rintro head ⟨emitted, head'⟩ item ⟨_, item'⟩ related ofHead ⟨rfl, ofHead'⟩
  exact changed emitted head head' related item item' ofHead ofHead'

theorem forwards_orElse {earlier : List H.Value} {run : Run H α} {run' : Run H β}
    {fallback : Option α} {fallback' : Option β} (forwards : run.Forwards R earlier run')
    (other : Option.Rel (R []) fallback fallback') :
    (run.orElse fallback).Forwards R earlier (run'.orElse fallback') := by
  intro items trace gives traces
  rcases gives_orElse gives with ⟨given, kept⟩ | ⟨item, given, rfl, rfl⟩ <;>
    rcases traces_orElse traces with ⟨traced, kept'⟩ | ⟨item', emitted, traced, rfl, rfl⟩
  · exact forwards items trace given traced
  · -- the first run gives nothing either, and has no fallback
    cases (forwards items _ given traced).items
    rw [kept rfl] at other
    contradiction
  · have nothing := List.forall₂_nil_left_iff.mp (forwards [] trace given traced).items
    rw [kept' (Trace.items_eq_nil_of_after nothing)] at other
    contradiction
  · have silent : earlier ++ emitted = [] := (forwards [] _ given traced).left
    cases other with
    | some related =>
        refine ⟨.cons ?_ .nil, rfl⟩
        rw [silent]
        exact related

end Run

end Typeahead
