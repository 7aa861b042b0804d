import Typeahead.Proofs.Delivery
import Typeahead.Proofs.Notes
import Typeahead.Proofs.Rule

namespace Typeahead

/-! How a definition comes by the values that are emitted within it.

Each value goes to the first branch that the enclosed parser yields after it was
emitted, so no value is lost as long as branches come, and none is handed out twice. -/

variable {H : Host} {α : Type}

/-- Values that were emitted between some items, handed to those of them that take
values: up to each such item, what was handed out is what was emitted. -/
structure HandsOver {V : Type} (takes : α → Bool) (items : List (List V × α))
    (handed : List (α × List V)) : Prop where
  heads : handed.map Prod.fst = items.map Prod.snd
  refused : ∀ pair ∈ handed, takes pair.1 = false → pair.2 = []
  upTo : ∀ front emitted head behind, items = front ++ (emitted, head) :: behind →
    takes head = true →
      (handed.take (front.length + 1)).flatMap Prod.snd = front.flatMap Prod.fst ++ emitted
  total : ∀ front emitted head behind, items = front ++ (emitted, head) :: behind →
    takes head = true → (∀ item ∈ behind, takes item.2 = false) →
      handed.flatMap Prod.snd = front.flatMap Prod.fst ++ emitted

namespace Trace

variable {takes : α → Bool} {waiting emitted : List H.Value} {head : α}

theorem handed_refused {items : List (List H.Value × α)} :
    ∀ pair ∈ handed takes waiting items, takes pair.1 = false → pair.2 = [] := by
  induction items generalizing waiting with
  | nil => simp [handed]
  | cons item others ih =>
      obtain ⟨emitted, head⟩ := item
      intro pair member refuses
      rw [handed] at member
      split at member
      · rename_i takes_it
        rcases List.mem_cons.mp member with rfl | behind
        · simp [takes_it] at refuses
        · exact ih pair behind refuses
      · rcases List.mem_cons.mp member with rfl | behind
        · rfl
        · exact ih pair behind refuses

theorem handed_upTo {front behind : List (List H.Value × α)} (takes_it : takes head = true) :
    ((handed takes waiting (front ++ (emitted, head) :: behind)).take (front.length + 1)).flatMap
      Prod.snd = waiting ++ front.flatMap Prod.fst ++ emitted := by
  -- what an item refuses waits for the next one, so the waiting values vary
  induction front generalizing waiting with
  | nil => simp [handed, takes_it]
  | cons item front ih =>
      obtain ⟨earlier, other⟩ := item
      rw [List.cons_append, handed]
      split <;> simp [ih]

theorem handed_append {front behind : List (List H.Value × α)} (takes_it : takes head = true) :
    handed takes waiting (front ++ (emitted, head) :: behind) =
      (handed takes waiting (front ++ (emitted, head) :: behind)).take (front.length + 1) ++
        handed takes [] behind := by
  induction front generalizing waiting with
  | nil => simp [handed, takes_it]
  | cons item front ih =>
      obtain ⟨earlier, other⟩ := item
      rw [List.cons_append, handed]
      split <;> rw [List.length_cons, List.take_succ_cons, List.cons_append, ← ih]

theorem handsOver_handed (takes : α → Bool) (items : List (List H.Value × α)) :
    HandsOver takes items (handed takes [] items) where
  heads := handed_fst takes [] items
  refused := handed_refused
  upTo front emitted head behind split takes_it := by
    rw [split, handed_upTo takes_it, List.nil_append]
  total front emitted head behind split takes_it refuse := by
    have nothing : (handed takes [] behind).flatMap Prod.snd = [] := by
      apply List.flatMap_eq_nil_iff.mpr
      intro pair member
      apply handed_refused pair member
      have among : pair.1 ∈ behind.map Prod.snd := by
        rw [← handed_fst takes []]
        exact List.mem_map_of_mem member
      obtain ⟨item, inside, same⟩ := List.mem_map.mp among
      exact same ▸ refuse item inside
    rw [split, handed_append takes_it, List.flatMap_append, handed_upTo takes_it, nothing,
      List.append_nil, List.nil_append]

end Trace

namespace Defined

variable {defined : Defined H}

/-- What a run of a definition emits and yields: the definition is run in one world, and
the pulls of the parser that it answers find the others. -/
def traceIn (defined : Defined H) (branch : Branch H) (world : H.World)
    (worlds : List H.World) : Trace H (Item H) :=
  let begun := defined.startOn branch world
  (begun.result.traceIn worlds).after begun.emitted

/-- An item is told the values that it is handed, and leaves the definition. -/
def Told (settings : Settings H) (pair : Item H × List H.Value)
    (yielded : List H.Value × Item H) : Prop :=
  ∃ world, ((deliver settings pair >>= settings.leave) world).result = yielded.2 ∧
    ((deliver settings pair >>= settings.leave) world).emitted = yielded.1

/-- Nothing that is emitted within the definition gets out of it. -/
theorem traceIn_step (defined : Defined H) (settings : Settings H) (branch : Branch H)
    (world : H.World) (worlds : List H.World) :
    (defined.step settings branch world).emitted = [] ∧
      (((defined.step settings branch world).result.mapAction settings.leave).traceIn
        worlds).left = [] ∧
      List.Forall₂ (Told settings)
        (Trace.handed takesValues [] (defined.traceIn branch world worlds).items)
        (((defined.step settings branch world).result.mapAction settings.leave).traceIn
          worlds).items := by
  let begun := defined.startOn branch world
  have stepped : (defined.step settings branch world).result =
      (begun.result.collecting takesValues begun.emitted).mapAction (deliver settings) := rfl
  rw [stepped, Run.mapAction_mapAction]
  obtain ⟨left, told⟩ := Run.traceIn_mapAction
    (fun pair => deliver settings pair >>= settings.leave)
    (begun.result.collecting takesValues begun.emitted) worlds
  rw [Run.traceIn_collecting] at left told
  refine ⟨rfl, left, ?_⟩
  rw [traceIn, Trace.handed_after]
  exact (List.forall₂_map_left_iff.mp told).imp fun _ _ told => told

/-- The items of a definition are told what was emitted within it: together, and up to
each branch, every value once and in order.  Only the placeholder that is shown where
the enclosed parser yields nothing is told nothing.  Where the definition is not run
there is one item and nothing is emitted. -/
theorem hands_over {options : RuleOptions H} {children : List (Parser H)} {parser : Parser H}
    (built : (Kind.defined defined).build options children = .ok parser) (branch : Branch H)
    (world : H.World) (worlds : List H.World) :
    let settings := options.settings children
    let copied := settings.fallback branch world
    let inner := defined.traceIn (branch.pushStack defined.name) copied.world worlds
    let outer := (parser.start branch world).result.traceIn worlds
    (settings.course (options.enabled (.defined defined)) branch = .proceed →
      (parser.start branch world).emitted = copied.emitted ∧ outer.left = [] ∧
      ∃ handed, HandsOver takesValues inner.items handed ∧
        (List.Forall₂ (Told settings) handed outer.items ∨
          inner.items = [] ∧ ∃ text copy, settings.placeholder = some text ∧
            branch.fork.Results copy ∧ outer.items = [([], settings.addPlaceholder text copy)])) ∧
    (settings.course (options.enabled (.defined defined)) branch ≠ .proceed →
      ∃ item, parser.start branch = pure (.one item)) := by
  intro settings copied inner outer
  obtain ⟨prepared, _, completed, made⟩ := Matcher.build_eq_ok built
  cases completed
  subst made
  constructor
  · intro proceeds
    have begun := Parser.start_around defined.name (defined.step settings) proceeds world
    obtain ⟨silent, left, told⟩ :=
      traceIn_step defined settings (branch.pushStack defined.name) copied.world worlds
    have traced : outer = _ := congrArg (fun started => started.result.traceIn worlds) begun
    dsimp only at traced
    refine ⟨(congrArg Outcome.emitted begun).trans (by rw [silent, List.append_nil]), ?_⟩
    rcases Run.traceIn_orElse _ copied.result worlds with
      same | ⟨item, emitted, shown, nothing, fallsBack⟩
    · rw [traced, same]
      exact ⟨left, _, Trace.handsOver_handed takesValues inner.items, .inl told⟩
    · -- what was emitted without an item stays in the definition
      rw [nothing] at left told
      obtain rfl : emitted = [] := left
      rw [traced, fallsBack]
      have none_handed : Trace.handed takesValues [] inner.items = [] :=
        List.forall₂_nil_right_iff.mp told
      have none_yielded : inner.items = [] := by
        have heads := Trace.handed_fst takesValues [] inner.items
        rw [none_handed] at heads
        exact List.map_eq_nil_iff.mp heads.symm
      rcases Settings.fallback_results ⟨world, shown⟩ with
        missing | ⟨text, copy, placeholder, _, copies, answered⟩
      · contradiction
      · cases answered
        exact ⟨rfl, _, Trace.handsOver_handed takesValues inner.items,
          .inr ⟨none_yielded, text, copy, placeholder, copies, rfl⟩⟩
  · intro other
    dsimp only [Parser.around]
    split
    · exact ⟨_, rfl⟩
    · exact ⟨_, rfl⟩
    · exact ⟨_, rfl⟩
    · contradiction

/-- A definition that emits a value before it answers a rule. -/
def announcing (rule : Rule Host.notes) : Defined Host.notes where
  name := "announcing"
  objection? := none
  create branch := do
    Action.emit (H := Host.notes) ['!']
    return { parser := rule.build, contexts := branch.contexts }

/-- Texts that are handed to the enclosing definition. -/
def readings : Rule Host.notes :=
  .node .fork {} [
    .node (.literal { text := ['a'] }) { onEmission := some forward } [],
    .node (.literal { text := ['a', 'b'] }) { onEmission := some forward } []]

def fresh (given : Text) : Branch Host.notes where
  given
  holder := .plain []
  data := []

theorem hands_over_readings : ∃ parser,
    (Kind.defined (announcing readings)).build { onEmission := some gather } [] = .ok parser ∧
    ((parser.start (fresh ['a', 'b']) ()).result.traceIn [(), (), ()]).heads.map
      (·.toOption.map (·.data)) = [some [['!'], ['a']], some [['a', 'b']]] ∧
    let settings := RuleOptions.settings { onEmission := some gather } []
    let copied := settings.fallback (fresh ['a', 'b']) ()
    let inner := (announcing readings).traceIn ((fresh ['a', 'b']).pushStack "announcing")
      copied.world [(), (), ()]
    let outer := (parser.start (fresh ['a', 'b']) ()).result.traceIn [(), (), ()]
    settings.course true (fresh ['a', 'b']) = .proceed ∧
      (parser.start (fresh ['a', 'b']) ()).emitted = copied.emitted ∧ outer.left = [] ∧
      ∃ handed, HandsOver takesValues inner.items handed ∧
        (List.Forall₂ (Told settings) handed outer.items ∨
          inner.items = [] ∧ ∃ text copy, settings.placeholder = some text ∧
            (fresh ['a', 'b']).fork.Results copy ∧
            outer.items = [([], settings.addPlaceholder text copy)]) := by
  obtain ⟨parser, built⟩ : ∃ parser, (Kind.defined (announcing readings)).build
      { onEmission := some gather } [] = .ok parser := ⟨_, rfl⟩
  have told : ((Kind.defined (announcing readings)).build { onEmission := some gather }
      []).toOption.all (fun parser =>
        ((parser.start (fresh ['a', 'b']) ()).result.traceIn [(), (), ()]).heads.map
          (·.toOption.map (·.data)) = [some [['!'], ['a']], some [['a', 'b']]]) = true := by
    decide +kernel
  rw [built] at told
  have proceeds : (RuleOptions.settings { onEmission := some gather } []).course true
      (fresh ['a', 'b']) = .proceed := rfl
  exact ⟨parser, built, of_decide_eq_true told, proceeds,
    (hands_over built (fresh ['a', 'b']) () [(), (), ()]).1 proceeds⟩

/-- A branch that has been read to its end. -/
def behind : Branch Host.notes :=
  { fresh ['a'] with parts := [{ content := ['a'], kind := .input }], consumed := 1 }

/-- The placeholder of a definition is told nothing of what was emitted before it. -/
theorem placeholder_untold : ∃ parser next,
    (Kind.defined (announcing (.node .whitespace {} []))).build
      { placeholder := some ['p'], onEmission := some gather } [] = .ok parser ∧
    (RuleOptions.settings { placeholder := some ['p'], onEmission := some gather } []).course true
      behind = .proceed ∧
    (parser.start behind ()).result.traceIn [()] = ⟨[([], .ok next)], []⟩ ∧
    next.data = [] ∧
    (announcing (.node .whitespace {} [])).traceIn (behind.pushStack "announcing") () [()] =
      ⟨[], [['!']]⟩ :=
  ⟨_, _, rfl, rfl, rfl, rfl, rfl⟩

end Defined

end Typeahead
