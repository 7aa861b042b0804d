import Typeahead.Proofs.Logs
import Typeahead.Proofs.Rule
import Typeahead.Proofs.Run.Pulls

namespace Typeahead

/-! Alternatives that nobody asked for.

A run is the front of another when, as long as it has items, every pull of the other
does just what the same pull of the run does.  The front of a fork is the fork of its
first children: until these have no more items, the others might as well be missing. -/

variable {H : Host} {α β : Type}

mutual

inductive Run.FrontOf : Run H α → Run H α → Prop
  | pulls {first second : Run H α}
      (each : ∀ world, Pull.FrontOf (first.pull world) (second.pull world)) :
      Run.FrontOf first second

inductive Pull.FrontOf : Pull H α → Pull H α → Prop
  | ended {emitted : List H.Value} {world : H.World} {pulled : Pull H α} :
      Pull.FrontOf (.ended emitted world) pulled
  | item {head : α} {emitted : List H.Value} {world : H.World} {rest rest' : Run H α}
      (others : Run.FrontOf rest rest') :
      Pull.FrontOf (.item head emitted world rest) (.item head emitted world rest')

end

/-- Both begin alike, and what the first begins is the front of what the second does. -/
structure Action.FrontOf (first second : Action H (Run H α)) : Prop where
  runs : ∀ world, (first world).result.FrontOf (second world).result
  emitted : ∀ world, (second world).emitted = (first world).emitted
  world : ∀ world, (second world).world = (first world).world

namespace Run

theorem frontOf_append (run later : Run H α) : run.FrontOf (run.append later) := by
  induction run using induct with
  | step run ih =>
      refine .pulls fun world => ?_
      rw [pull_append]
      cases pulled : run.pull world with
      | ended emitted left => exact .ended
      | item head emitted left rest => exact .item (ih world rest (by simp [pulled, Pull.rest?]))

theorem frontOf_refl (run : Run H α) : run.FrontOf run := by
  have front := run.frontOf_append empty
  rwa [append_empty] at front

namespace FrontOf

variable {first second rest : Run H α} {world left : H.World} {head : α} {emitted : List H.Value}

theorem pull_item (front : first.FrontOf second)
    (pulled : first.pull world = .item head emitted left rest) :
    ∃ rest', second.pull world = .item head emitted left rest' ∧ rest.FrontOf rest' := by
  obtain ⟨each⟩ := front
  have here := each world
  rw [pulled] at here
  generalize second.pull world = other at here
  cases here with
  | item others => exact ⟨_, rfl, others⟩

theorem mapAction (front : first.FrontOf second) (f : α → Action H β) :
    (first.mapAction f).FrontOf (second.mapAction f) := by
  induction first using induct generalizing second with
  | step first ih =>
      refine .pulls fun world => ?_
      rw [pull_mapAction, pull_mapAction]
      cases pulled : first.pull world with
      | ended emitted left => exact .ended
      | item head emitted left rest =>
          obtain ⟨rest', pulled', others⟩ := front.pull_item pulled
          rw [pulled']
          exact .item (ih world rest (by simp [pulled, Pull.rest?]) others)

theorem orElse_none (front : first.FrontOf second) :
    (first.orElse none).FrontOf (second.orElse none) := by
  refine .pulls fun world => ?_
  cases pulled : first.pull world with
  | ended emitted left =>
      simp only [orElse, pull_suspended, pulled]
      exact .ended
  | item head emitted left rest =>
      obtain ⟨rest', pulled', others⟩ := front.pull_item pulled
      simp only [orElse, pull_suspended, pulled, pulled']
      exact .item others

theorem filterMap (front : first.FrontOf second) (f : α → Option β) :
    (first.filterMap f).FrontOf (second.filterMap f) := by
  induction first using induct generalizing second with
  | step first ih =>
      refine .pulls fun world => ?_
      rw [pull_filterMap, pull_filterMap]
      cases pulled : first.pull world with
      | ended emitted left => exact .ended
      | item head emitted left rest =>
          obtain ⟨rest', pulled', others⟩ := front.pull_item pulled
          have filtered := ih world rest (by simp [pulled, Pull.rest?]) others
          rw [pulled', Pull.filterMap, Pull.filterMap]
          cases f head with
          | some changed => exact .item filtered
          | none =>
              -- the same pull goes on to the next item, on both sides
              dsimp only
              cases next : (rest.filterMap f).pull left with
              | ended more final => exact .ended
              | item other more final behind =>
                  obtain ⟨behind', next', others'⟩ := filtered.pull_item next
                  rw [next']
                  exact .item others'

theorem capped (front : first.FrontOf second) (counts : α → Bool) (cap : Nat) :
    (first.capped counts cap).FrontOf (second.capped counts cap) := by
  induction first using induct generalizing second cap with
  | step first ih =>
      refine .pulls fun world => ?_
      cases cap with
      | zero =>
          rw [pull_capped_zero]
          exact .ended
      | succ cap =>
          rw [pull_capped_succ, pull_capped_succ]
          cases pulled : first.pull world with
          | ended emitted left => exact .ended
          | item head emitted left rest =>
              obtain ⟨rest', pulled', others⟩ := front.pull_item pulled
              rw [pulled']
              exact .item (ih world rest (by simp [pulled, Pull.rest?]) others _)

end FrontOf

theorem concatMap_append (f : β → Action H (Run H α)) (front later : List β) :
    concatMap f (front ++ later) = (concatMap f front).append (concatMap f later) := by
  induction front with
  | nil => simp [concatMap]
  | cons member front ih =>
      rw [List.cons_append, concatMap, concatMap, ih]
      refine ext fun world => ?_
      simp only [pull_defer, pull_append, Action.bind_def, Action.pure_def, ← append_assoc,
        Pull.append_after]

end Run

namespace Cursor

/-- What each of so many pulls does when it finds the world that is given for it. -/
def outcomesIn (cursor : Cursor H α) : List H.World → List (Outcome H (Option α))
  | [] => []
  | world :: later =>
      let pulled := cursor.next world
      { pulled with result := pulled.result.1 } :: pulled.result.2.outcomesIn later

end Cursor

namespace Run.FrontOf

variable {first second : Run H α}

/-- As many pulls as the front has items do the same on both. -/
theorem pulls_eq (front : first.FrontOf second) {count : Nat} {world : H.World}
    (enough : count ≤ (first.toList world).result.length) :
    Cursor.pulls count (.ofRun second) world = Cursor.pulls count (.ofRun first) world := by
  induction count generalizing first second world with
  | zero => rfl
  | succ count ih =>
      rw [toList_apply] at enough
      cases pulled : first.pull world with
      | ended emitted left => simp [pulled, Pull.toList] at enough
      | item head emitted left rest =>
          obtain ⟨rest', pulled', others⟩ := front.pull_item pulled
          have fewer : count ≤ (rest.toList left).result.length := by
            simpa [pulled, Pull.toList] using enough
          simp only [Cursor.pulls, Action.bind_def, Cursor.next_ofRun_item pulled,
            Cursor.next_ofRun_item pulled', ih others fewer]

theorem outcomesIn_eq (front : first.FrontOf second) {worlds : List H.World}
    (answers : ∀ outcome ∈ (Cursor.ofRun first).outcomesIn worlds, outcome.result ≠ none) :
    (Cursor.ofRun second).outcomesIn worlds = (Cursor.ofRun first).outcomesIn worlds := by
  induction worlds generalizing first second with
  | nil => rfl
  | cons world later ih =>
      cases pulled : first.pull world with
      | ended emitted left =>
          simp [Cursor.outcomesIn, Cursor.next_ofRun_ended pulled] at answers
      | item head emitted left rest =>
          obtain ⟨rest', pulled', others⟩ := front.pull_item pulled
          simp only [Cursor.outcomesIn, Cursor.next_ofRun_item pulled] at answers ⊢
          rw [Cursor.next_ofRun_item pulled',
            ih others fun outcome member => answers outcome (List.mem_cons_of_mem _ member)]

end Run.FrontOf

namespace Action.FrontOf

theorem refl (begin : Action H (Run H α)) : begin.FrontOf begin where
  runs _ := Run.frontOf_refl _
  emitted _ := rfl
  world _ := rfl

theorem pure {first second : Run H α} (front : first.FrontOf second) :
    (Pure.pure first : Action H (Run H α)).FrontOf (Pure.pure second) where
  runs _ := front
  emitted _ := rfl
  world _ := rfl

theorem after {before : Action H β} {first second : β → Action H (Run H α)}
    (fronts : ∀ result, (first result).FrontOf (second result)) :
    (before >>= first).FrontOf (before >>= second) where
  runs world := (fronts _).runs _
  emitted world := by simp [Action.bind_def, (fronts _).emitted]
  world world := (fronts _).world _

/-- Beginning and then pulling as often as the front has items does the same. -/
theorem pulls_eq {first second : Action H (Run H α)} (front : first.FrontOf second) {count : Nat}
    {world : H.World} (enough : count ≤ ((first >>= Run.toList) world).result.length) :
    (second >>= fun run => Cursor.pulls count (.ofRun run)) world =
      (first >>= fun run => Cursor.pulls count (.ofRun run)) world := by
  have same := (front.runs world).pulls_eq enough
  simp only [Action.bind_def, front.emitted, front.world, same]

theorem change {first second : Action H (Run H α)} (front : first.FrontOf second)
    {change : Run H α → Run H β}
    (keeps : ∀ run other : Run H α, run.FrontOf other → (change run).FrontOf (change other)) :
    (do return change (← first) : Action H (Run H β)).FrontOf (do return change (← second)) where
  runs world := by simpa [Action.map_def] using keeps _ _ (front.runs world)
  emitted world := by simpa [Action.map_def] using front.emitted world
  world world := by simpa [Action.map_def] using front.world world

end Action.FrontOf

theorem Run.FrontOf.select {first second : Run H (Item H)} (front : first.FrontOf second)
    (options : ParseOptions) : (options.select first).FrontOf (options.select second) := by
  simp only [ParseOptions.select]
  cases options.maxResults with
  | none => exact front.filterMap _
  | some cap => exact (front.filterMap _).capped _ _

namespace Fork

variable {options : RuleOptions H}

theorem frontOf_step (options : RuleOptions H) (children later : List (Parser H))
    (branch : Branch H) : (step (options.settings children) branch).FrontOf
      (step (options.settings (children ++ later)) branch) := by
  refine .pure ?_
  dsimp only [RuleOptions.settings]
  rw [Run.concatMap_append]
  exact Run.frontOf_append _ _

/-- A fork that cannot fall back to a placeholder of its own is the front of the fork of more
children. -/
theorem frontOf_around {branch : Branch H}
    (plain : options.placeholder = none ∨ branch.hasInput = true) (enabled : Bool)
    (children later : List (Parser H)) :
    ((Parser.around "fork" enabled (options.settings children)
        (step (options.settings children))).start branch).FrontOf
      ((Parser.around "fork" enabled (options.settings (children ++ later))
        (step (options.settings (children ++ later)))).start branch) := by
  have course : (options.settings (children ++ later)).course enabled branch =
      (options.settings children).course enabled branch := rfl
  have missing (children : List (Parser H)) :
      (options.settings children).fallback branch = pure none := by
    rw [Settings.fallback]
    split
    · rename_i text shown
      rcases plain with absent | used
      · exact absurd (absent.symm.trans shown) (by simp)
      · rw [if_pos used]
    · rfl
  dsimp only [Parser.around]
  rw [course, missing, missing]
  split
  · exact .refl _
  · exact .refl _
  · exact .refl _
  · simp only [pure_bind]
    refine (frontOf_step options children later _).change fun run other front => ?_
    exact (front.mapAction _).orElse_none

end Fork

namespace Parser

def allItems (parser : Parser H) (branch : Branch H) : Action H (List (Item H)) := do
  (← parser.start branch).toList

/-- The answers of so many pulls of what a parser makes of a branch. -/
def pulls (parser : Parser H) (count : Nat) (branch : Branch H) :
    Action H (List (Option (Item H))) := do
  Cursor.pulls count (.ofRun (← parser.start branch))

end Parser

theorem Kind.frontOf_fork {options : RuleOptions H} {children : List (Parser H)} {fork : Parser H}
    (built : Kind.fork.build options children = .ok fork) (later : List (Parser H)) :
    ∃ wider, Kind.fork.build options (children ++ later) = .ok wider ∧
      ∀ branch, options.placeholder = none ∨ branch.hasInput = true →
        (fork.start branch).FrontOf (wider.start branch) := by
  obtain ⟨prepared, checked, completed, rfl⟩ := Matcher.build_eq_ok built
  cases completed
  cases children with
  | nil => contradiction
  | cons child others =>
      exact ⟨_, rfl, fun branch plain =>
        Fork.frontOf_around plain (options.enabled .fork) (child :: others) later⟩

/-- As long as the first children of a fork have items, nothing is done for the others:
neither the call nor a pull, in whatever world it finds itself, differs from that of the
fork of the first children alone.  Only a fork that may fall back to a placeholder of its own
has to ask the others first. -/
theorem Kind.fork_unexplored {options : RuleOptions H} {children : List (Parser H)}
    {fork : Parser H} (built : Kind.fork.build options children = .ok fork)
    (later : List (Parser H)) :
    ∃ wider, Kind.fork.build options (children ++ later) = .ok wider ∧
      ∀ branch world, options.placeholder = none ∨ branch.hasInput = true →
        (∀ count ≤ (fork.allItems branch world).result.length,
          wider.pulls count branch world = fork.pulls count branch world) ∧
        ∀ worlds,
          let cursor := Cursor.ofRun (fork.start branch world).result
          (∀ outcome ∈ cursor.outcomesIn worlds, outcome.result ≠ none) →
            (Cursor.ofRun (wider.start branch world).result).outcomesIn worlds =
              cursor.outcomesIn worlds := by
  obtain ⟨wider, builtWider, fronts⟩ := Kind.frontOf_fork built later
  refine ⟨wider, builtWider, fun branch world plain => ?_⟩
  have front := fronts branch plain
  exact ⟨fun count enough => front.pulls_eq enough,
    fun worlds answers => (front.runs world).outcomesIn_eq answers⟩

/-- One literal is asked for its first item, and the other one not before the second. -/
theorem Kind.fork_unexplored_on : ∃ children later fork wider,
    Rule.buildAll [Logs.literal "on"] = .ok children ∧
    Rule.buildAll [Logs.literal "once"] = .ok later ∧
    Kind.fork.build {} children = .ok fork ∧
    Kind.fork.build {} (children ++ later) = .ok wider ∧
    (fork.allItems (Logs.branch "on") []).result.length = 1 ∧
    wider.pulls 1 (Logs.branch "on") [] = fork.pulls 1 (Logs.branch "on") [] ∧
    (wider.pulls 1 (Logs.branch "on") []).world = ["copy", "on"] ∧
    (wider.pulls 2 (Logs.branch "on") []).world = ["copy", "on", "copy"] := by
  have unexplored {children later : List (Parser Host.logs)} {fork wider : Parser Host.logs}
      (_ : Rule.buildAll [Logs.literal "on"] = .ok children)
      (_ : Rule.buildAll [Logs.literal "once"] = .ok later)
      (built : Kind.fork.build {} children = .ok fork)
      (builtWider : Kind.fork.build {} (children ++ later) = .ok wider)
      (one : (fork.allItems (Logs.branch "on") []).result.length = 1) :
      wider.pulls 1 (Logs.branch "on") [] = fork.pulls 1 (Logs.branch "on") [] := by
    obtain ⟨_, builtWider', same⟩ := Kind.fork_unexplored built later
    cases builtWider.symm.trans builtWider'
    exact (same (Logs.branch "on") [] (.inl rfl)).1 1 (Nat.le_of_eq one.symm)
  refine ⟨_, _, _, _, rfl, rfl, rfl, rfl, ?_, unexplored rfl rfl rfl rfl ?_, ?_, ?_⟩
  all_goals decide +kernel

theorem Grammar.frontOf_results {first second : Parser H}
    (front : ∀ branch, (first.start branch).FrontOf (second.start branch)) (holder : Holder H)
    (input : Text) (options : ParseOptions) :
    (Grammar.results { parser := first, holder } input options).FrontOf
      (Grammar.results { parser := second, holder } input options) :=
  .after fun root => (front root).change fun _ _ before => before.select options

/-- Nor is anything done for the others as long as the first children lead to results. -/
theorem Grammar.parse_unexplored {options : RuleOptions H} {children : List (Parser H)}
    {fork : Parser H} (plain : options.placeholder = none)
    (built : Kind.fork.build options children = .ok fork) (later : List (Parser H)) :
    ∃ wider, Kind.fork.build options (children ++ later) = .ok wider ∧
      ∀ (holder : Holder H) input options world count,
        count ≤ ((Grammar.results { parser := fork, holder } input options >>= Run.toList)
          world).result.length →
        (Grammar.parse { parser := wider, holder } input options >>= Cursor.pulls count) world =
          (Grammar.parse { parser := fork, holder } input options >>= Cursor.pulls count)
            world := by
  obtain ⟨wider, builtWider, fronts⟩ := Kind.frontOf_fork built later
  have front (branch : Branch H) := fronts branch (.inl plain)
  refine ⟨wider, builtWider, fun holder input options world count enough => ?_⟩
  simp only [Grammar.parse, bind_assoc, pure_bind]
  exact (Grammar.frontOf_results front holder input options).pulls_eq enough

end Typeahead
