import Typeahead.Grammar
import Typeahead.Proofs.Run.Pulls

namespace Typeahead

/-! What a parse lets through of the items of its root parser.

Branches that left input are dropped where the entire input is required, and a cap
cuts what remains behind the last result that is allowed.  Errors are neither dropped
nor counted. -/

variable {H : Host}

/-- Some answers under a cap: the shortest lead of them with that many results, or all
of them if there are fewer. -/
structure Capped {α : Type} (cap : Nat) (all kept : List (Except Error α)) : Prop where
  lead : kept <+: all
  enough : kept.countP isResult = cap ∨ kept = all ∧ all.countP isResult < cap
  shortest : ∀ lead, lead <+: all → lead.countP isResult = cap → kept <+: lead

theorem capped_upTo {α : Type} (cap : Nat) (all : List (Except Error α)) :
    Capped cap all (Run.upTo isResult cap all) := by
  -- an error leaves the cap as it is, so the answers and not the cap are run through
  induction all generalizing cap with
  | nil =>
      cases cap with
      | zero => exact ⟨List.prefix_rfl, .inl rfl, fun _ _ _ => List.nil_prefix⟩
      | succ cap =>
          exact ⟨List.prefix_rfl, .inr ⟨rfl, Nat.succ_pos cap⟩, fun _ _ _ => List.nil_prefix⟩
  | cons answer others ih =>
      cases cap with
      | zero => exact ⟨List.nil_prefix, .inl rfl, fun _ _ _ => List.nil_prefix⟩
      | succ cap =>
          rw [Run.upTo]
          have behind := ih (if isResult answer then cap else cap + 1)
          refine ⟨(List.prefix_cons_inj answer).mpr behind.lead, ?_, ?_⟩
          · rcases behind.enough with full | ⟨whole, fewer⟩
            · refine .inl ?_
              rw [List.countP_cons, full]
              split <;> rfl
            · refine .inr ⟨by rw [whole], ?_⟩
              rw [List.countP_cons]
              split at fewer <;> simp_all
          · intro lead leading full
            cases lead with
            | nil => contradiction
            | cons head lead =>
                obtain ⟨rfl, among⟩ := List.cons_prefix_cons.mp leading
                refine (List.prefix_cons_inj head).mpr (behind.shortest lead among ?_)
                rw [List.countP_cons] at full
                split at full <;> simp_all

theorem length_results {α : Type} (answers : List (Except Error α)) :
    (answers.filterMap Except.toOption).length = answers.countP isResult := by
  induction answers with
  | nil => rfl
  | cons answer others ih =>
      cases answer with
      | ok result =>
          rw [List.countP_cons_of_pos (by rfl), ← ih]
          rfl
      | error cause =>
          rw [List.countP_cons_of_neg (by simp [isResult]), ← ih]
          rfl

/-- Of the results alone a cap leaves the first. -/
theorem Capped.results {α : Type} {cap : Nat} {all kept : List (Except Error α)}
    (capped : Capped cap all kept) :
    kept.filterMap Except.toOption = (all.filterMap Except.toOption).take cap := by
  rcases capped.enough with full | ⟨rfl, fewer⟩
  · obtain ⟨behind, rfl⟩ := capped.lead
    rw [List.filterMap_append, ← full, ← length_results, List.take_left]
  · rw [List.take_of_length_le]
    rw [length_results]
    omega

namespace ParseOptions

variable {options : ParseOptions}

/-- Branches with input left, where the entire input is required. -/
def drops (options : ParseOptions) : Item H → Bool
  | .ok branch => options.requireEntireInput && branch.hasInput
  | .error _ => false

/-- The items that are not dropped, as the owner sees them. -/
def passing (options : ParseOptions) (items : List (Item H)) :
    List (Except Error (ParseResult H)) :=
  (items.filter (!options.drops ·)).map (·.map Branch.toResult)

/-- What the options leave of the items of a root parser. -/
def Selects (options : ParseOptions) (items : List (Item H))
    (kept : List (Except Error (ParseResult H))) : Prop :=
  match options.maxResults with
  | none => kept = options.passing items
  | some cap => Capped cap (options.passing items) kept

theorem filterMap_result? (options : ParseOptions) (items : List (Item H)) :
    items.filterMap options.result? = options.passing items := by
  induction items with
  | nil => rfl
  | cons item others ih =>
      rw [passing] at ih ⊢
      cases item with
      | error cause => simp [result?, drops, ih, Except.map]
      | ok branch =>
          by_cases left : (options.requireEntireInput && branch.hasInput) = true
          · simp [result?, drops, left, ih]
          · simp [result?, drops, left, ih, Except.map]

theorem selects_of_gives {run : Run H (Item H)} {kept : List (Except Error (ParseResult H))}
    (gives : (options.select run).Gives kept) :
    ∃ items, run.Gives items ∧ options.Selects items kept := by
  rw [select] at gives
  cases cap : options.maxResults with
  | none =>
      rw [cap] at gives
      obtain ⟨items, given, rfl⟩ := Run.gives_filterMap gives
      exact ⟨items, given, by simp [Selects, cap, filterMap_result?]⟩
  | some count =>
      rw [cap] at gives
      obtain ⟨all, ofAll, rfl⟩ := Run.gives_capped gives
      obtain ⟨items, given, rfl⟩ := Run.gives_filterMap ofAll
      refine ⟨items, given, ?_⟩
      simp only [Selects, cap, filterMap_result?]
      exact capped_upTo count _

/-- What the options leave of some results. -/
def keep (options : ParseOptions) (results : List (ParseResult H)) : List (ParseResult H) :=
  let whole := results.filter fun result => !(options.requireEntireInput && !result.input.isEmpty)
  match options.maxResults with
  | none => whole
  | some cap => whole.take cap

theorem passing_results (options : ParseOptions) (items : List (Item H)) :
    (options.passing items).filterMap Except.toOption =
      ((items.filterMap Except.toOption).map Branch.toResult).filter fun result =>
        !(options.requireEntireInput && !result.input.isEmpty) := by
  rw [← filterMap_result?, List.filterMap_filterMap, List.map_filterMap, List.filter_filterMap]
  congr
  funext item
  cases item with
  | error cause => rfl
  | ok branch =>
      change (options.result? (.ok branch)).bind Except.toOption =
        Option.filter _ (some branch.toResult)
      rw [Option.filter_some, result?, Branch.hasInput, Branch.toResult]
      cases options.requireEntireInput && !branch.input.isEmpty <;> rfl

/-- The results that are left depend on the branches alone. -/
theorem Selects.results {items : List (Item H)} {kept : List (Except Error (ParseResult H))}
    (selects : options.Selects items kept) :
    kept.filterMap Except.toOption =
      options.keep ((items.filterMap Except.toOption).map Branch.toResult) := by
  rw [Selects] at selects
  rw [keep]
  cases cap : options.maxResults with
  | none =>
      rw [cap] at selects
      rw [selects, passing_results]
  | some count =>
      rw [cap] at selects
      rw [selects.results, passing_results]

theorem selects_toList (options : ParseOptions) (run : Run H (Item H)) (world : H.World) :
    options.Selects (run.toList world).result ((options.select run).toList world).result := by
  rw [select, Selects]
  cases options.maxResults with
  | none => simp [Run.toList_filterMap, Action.map_def, filterMap_result?]
  | some cap =>
      simp only [Run.toList_capped, Run.toList_filterMap, bind_pure_comp, Action.map_def,
        filterMap_result?]
      exact capped_upTo cap _

/-- No pull reaches the root parser once there was no answer or the cap is reached. -/
theorem next_select (options : ParseOptions) (run : Run H (Item H)) (worlds : List H.World)
    (done : none ∈ ((Cursor.ofRun (options.select run)).pullIn worlds).1 ∨
      options.maxResults =
        some (((Cursor.ofRun (options.select run)).pullIn worlds).1.countP (·.any isResult)))
    (world : H.World) :
    ((Cursor.ofRun (options.select run)).pullIn worlds).2.next world =
      ⟨(none, .exhausted), [], world⟩ := by
  rcases done with answered | full
  · rw [Cursor.exhausted_of_none answered]
    exact Cursor.next_exhausted world
  · generalize counted : List.countP _ _ = cap at full
    have capped : options.select run = (run.filterMap options.result?).capped isResult cap := by
      rw [select, full]
    rw [capped] at counted ⊢
    exact Cursor.next_of_capped counted world

end ParseOptions

namespace Grammar

/-- The items of the root parser on a fresh branch. -/
def items (grammar : Grammar H) (input : Text) : Action H (Run H (Item H)) := do
  grammar.parser.start (← Branch.root input grammar.holder)

theorem results_eq (grammar : Grammar H) (input : Text) (options : ParseOptions) :
    grammar.results input options = (do return options.select (← grammar.items input)) := by
  simp [results, items]

/-- Every pull of a parse, in whatever world, is answered with the next of the items
that the options leave, and when these are used up no pull has an effect any more.
Pulled in a row, the answers are what the options leave of the root parser pulled to its
end, and collecting them answers the first error among them, or all results. -/
theorem parse_selects (grammar : Grammar H) (input : Text) (options : ParseOptions)
    (world : H.World) :
    let begun := grammar.items input world
    let parsed := grammar.parse input options world
    (∀ worlds, ∃ items kept, begun.result.Gives items ∧ options.Selects items kept ∧
      (parsed.result.pullIn worlds).1 = (List.range worlds.length).map (kept[·]?)) ∧
    (∀ worlds, none ∈ (parsed.result.pullIn worlds).1 ∨
        options.maxResults = some ((parsed.result.pullIn worlds).1.countP (·.any isResult)) →
      ∀ later, (parsed.result.pullIn worlds).2.next later = ⟨(none, .exhausted), [], later⟩) ∧
    ∃ kept, options.Selects (begun.result.toList begun.world).result kept ∧
      (∀ count, (Cursor.pulls count parsed.result parsed.world).result =
        (List.range count).map (kept[·]?)) ∧
      (∀ results, kept = results.map .ok →
        (grammar.parseAll input options world).result = .ok results) ∧
      ∀ (front : List (ParseResult H)) cause behind,
        kept = front.map .ok ++ .error cause :: behind →
          (grammar.parseAll input options world).result = .error cause := by
  intro begun parsed
  have same : parsed =
      ⟨.ofRun (options.select begun.result), begun.emitted, begun.world⟩ := by
    simp [parsed, begun, parse, results_eq, Action.map_def]
  rw [same]
  refine ⟨?_, ?_, ((options.select begun.result).toList begun.world).result, ?_, ?_, ?_, ?_⟩
  · intro worlds
    obtain ⟨kept, gives, answers⟩ :=
      Cursor.pullIn_ofRun (options.select begun.result) worlds world
    obtain ⟨items, given, selects⟩ := ParseOptions.selects_of_gives gives
    exact ⟨items, kept, given, selects, answers⟩
  · intro worlds
    exact options.next_select begun.result worlds
  · exact options.selects_toList begun.result begun.world
  · intro count
    exact Cursor.pulls_ofRun count (options.select begun.result) begun.world
  · intro results given
    have collected := Run.collect_eq_ok given
    simpa [parseAll, results_eq, Action.bind_def, Action.map_def, begun] using collected
  · intro front cause behind given
    have failed := Run.collect_eq_error given
    simpa [parseAll, results_eq, Action.bind_def, Action.map_def, begun] using failed

end Grammar

end Typeahead
