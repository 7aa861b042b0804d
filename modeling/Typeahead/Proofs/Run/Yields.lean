import Typeahead.Grammar
import Typeahead.Proofs.Run.Gives

namespace Typeahead

/-! Single items of runs and cursors.

`Yields` says that some pulls of a run give an item.  An item of a composed run
comes from an item of one of its parts, so a property of all items is carried
from the parts to the whole. -/

variable {H : Host} {α β : Type}

/-- Some way of pulling the run gives the item. -/
def Run.Yields (run : Run H α) (item : α) : Prop :=
  ∃ items, run.Gives items ∧ item ∈ items

/-- Begun in some world, the run yields the item. -/
def Action.Yields (begin : Action H (Run H α)) (item : α) : Prop :=
  ∃ items, begin.Gives items ∧ item ∈ items

/-- Some pull, in whatever world, is answered with the item. -/
inductive Cursor.Yields {H : Host} {α : Type} : Cursor H α → α → Prop
  | now {cursor rest : Cursor H α} {item : α}
      (answered : cursor.next.Results (some item, rest)) : Yields cursor item
  | later {cursor rest : Cursor H α} {item other : α}
      (answered : cursor.next.Results (some other, rest))
      (yielded : Yields rest item) : Yields cursor item

theorem exists_of_mem_flatten {R : α → List β → Prop} {heads : List α} {groups : List (List β)}
    {item : β} (grouped : List.Forall₂ R heads groups) (member : item ∈ groups.flatten) :
    ∃ head ∈ heads, ∃ group, R head group ∧ item ∈ group := by
  induction grouped with
  | nil => simp at member
  | @cons head group heads groups related _ ih =>
      rcases List.mem_append.mp member with found | found
      · exact ⟨head, List.mem_cons_self, group, related, found⟩
      · obtain ⟨other, among, rest⟩ := ih found
        exact ⟨other, List.mem_cons_of_mem head among, rest⟩

theorem exists_of_mem_forall₂ {R : α → β → Prop} {heads : List α} {items : List β} {item : β}
    (paired : List.Forall₂ R heads items) (member : item ∈ items) :
    ∃ head ∈ heads, R head item := by
  induction paired with
  | nil => simp at member
  | @cons head other heads items related _ ih =>
      rcases List.mem_cons.mp member with rfl | found
      · exact ⟨head, List.mem_cons_self, related⟩
      · obtain ⟨another, among, rest⟩ := ih found
        exact ⟨another, List.mem_cons_of_mem head among, rest⟩

theorem Run.not_yields_empty {item : α} : ¬ (empty : Run H α).Yields item := by
  rintro ⟨items, gives, member⟩
  simp [gives_empty gives] at member

namespace Action

theorem yields_pure {run : Run H α} {item : α}
    (yielded : Yields (pure run : Action H (Run H α)) item) : run.Yields item := by
  obtain ⟨items, gives, member⟩ := yielded
  exact ⟨items, gives_pure gives, member⟩

theorem not_yields_empty {item : α} : ¬ Yields (pure Run.empty : Action H (Run H α)) item :=
  fun yielded => Run.not_yields_empty (yields_pure yielded)

theorem yields_bind {action : Action H β} {next : β → Action H (Run H α)} {item : α}
    (yielded : (action >>= next).Yields item) :
    ∃ middle, action.Results middle ∧ (next middle).Yields item := by
  obtain ⟨items, gives, member⟩ := yielded
  obtain ⟨middle, answered, given⟩ := gives_bind gives
  exact ⟨middle, answered, items, given, member⟩

theorem yields_of_results {begin : Action H (Run H α)} {run : Run H α} {item : α}
    (begun : begin.Results run) (yielded : run.Yields item) : begin.Yields item := by
  obtain ⟨items, gives, member⟩ := yielded
  exact ⟨items, ⟨run, begun, gives⟩, member⟩

end Action

namespace Run

theorem yields_one {only item : α} (yielded : (one only : Run H α).Yields item) :
    item = only := by
  obtain ⟨items, gives, member⟩ := yielded
  simpa [gives_one gives] using member

theorem yields_cons {head item : α} {rest : Run H α} (yielded : (cons head rest).Yields item) :
    item = head ∨ rest.Yields item := by
  obtain ⟨items, gives, member⟩ := yielded
  obtain ⟨others, given, rfl⟩ := gives_cons gives
  exact (List.mem_cons.mp member).imp_right fun found => ⟨others, given, found⟩

theorem yields_defer {begin : Action H (Run H α)} {item : α}
    (yielded : (defer begin).Yields item) : begin.Yields item := by
  obtain ⟨items, gives, member⟩ := yielded
  exact ⟨items, gives_defer gives, member⟩

theorem yields_append {first second : Run H α} {item : α}
    (yielded : (first.append second).Yields item) : first.Yields item ∨ second.Yields item := by
  obtain ⟨items, gives, member⟩ := yielded
  obtain ⟨left, right, ofFirst, ofSecond, rfl⟩ := gives_append gives
  exact (List.mem_append.mp member).imp (fun found => ⟨left, ofFirst, found⟩)
    fun found => ⟨right, ofSecond, found⟩

theorem yields_filterMap {f : α → Option β} {run : Run H α} {item : β}
    (yielded : (run.filterMap f).Yields item) : ∃ head, run.Yields head ∧ f head = some item := by
  obtain ⟨items, gives, member⟩ := yielded
  obtain ⟨heads, given, rfl⟩ := gives_filterMap gives
  obtain ⟨head, among, answered⟩ := List.mem_filterMap.mp member
  exact ⟨head, ⟨heads, given, among⟩, answered⟩

theorem yields_concatMap {f : β → Action H (Run H α)} {members : List β} {item : α}
    (yielded : (concatMap f members).Yields item) :
    ∃ member ∈ members, (f member).Yields item := by
  obtain ⟨items, gives, found⟩ := yielded
  obtain ⟨groups, grouped, rfl⟩ := gives_concatMap gives
  obtain ⟨member, among, group, given, inside⟩ := exists_of_mem_flatten grouped found
  exact ⟨member, among, group, given, inside⟩

theorem yields_take {limit : Nat} {run : Run H α} {item : α}
    (yielded : (run.take limit).Yields item) : run.Yields item := by
  obtain ⟨items, gives, member⟩ := yielded
  obtain ⟨all, given, rfl⟩ := gives_take gives
  exact ⟨all, given, List.mem_of_mem_take member⟩

theorem yields_capped {counts : α → Bool} {cap : Nat} {run : Run H α} {item : α}
    (yielded : (run.capped counts cap).Yields item) : run.Yields item := by
  obtain ⟨items, gives, member⟩ := yielded
  obtain ⟨all, given, rfl⟩ := gives_capped gives
  exact ⟨all, given, (upTo_leading counts cap all).subset member⟩

theorem yields_thenExtend {extend : Branch H → Action H (Run H (Item H))}
    {run : Run H (Item H)} {item : Item H} (yielded : (run.thenExtend extend).Yields item) :
    run.Yields item ∨ ∃ branch copy, run.Yields (.ok branch) ∧ branch.fork.Results copy ∧
      (extend copy).Yields item := by
  obtain ⟨items, gives, member⟩ := yielded
  obtain ⟨heads, groups, given, grouped, rfl⟩ := gives_thenExtend gives
  obtain ⟨head, among, group, related, inside⟩ := exists_of_mem_flatten grouped member
  cases related with
  | @branch branch copy more copied extended =>
      rcases List.mem_cons.mp inside with rfl | found
      · exact .inl ⟨heads, given, among⟩
      · exact .inr ⟨branch, copy, ⟨heads, given, among⟩, copied, more, extended, found⟩
  | error =>
      rw [List.mem_singleton.mp inside]
      exact .inl ⟨heads, given, among⟩

end Run

theorem Cursor.yields_next {cursor : Cursor H α} {world : H.World} {item : α}
    (answered : (cursor.next world).result.1 = some item) : cursor.Yields item := by
  have both : (cursor.next world).result = (some item, (cursor.next world).result.2) :=
    Prod.ext answered rfl
  exact .now ⟨world, both⟩

theorem Cursor.yields_further {cursor : Cursor H α} {world : H.World} {item other : α}
    (answered : (cursor.next world).result.1 = some other)
    (yielded : (cursor.next world).result.2.Yields item) : cursor.Yields item :=
  .later ⟨world, Prod.ext answered rfl⟩ yielded

theorem Cursor.run_yields {run : Run H α} {item : α} (yielded : (ofRun run).Yields item) :
    run.Yields item := by
  generalize cursor_eq : ofRun run = cursor at yielded
  induction yielded generalizing run with
  | now answered =>
      subst cursor_eq
      obtain ⟨world, answered⟩ := answered
      cases pulled : run.pull world with
      | ended emitted left => simp [next, ofRun, pulled] at answered
      | item head emitted left rest =>
          simp only [next, ofRun, pulled, Prod.mk.injEq, Option.some.injEq] at answered
          obtain ⟨rfl, rfl⟩ := answered
          exact ⟨_, Run.gives_of_item pulled (Run.gives_toList rest left), List.mem_cons_self⟩
  | later answered _ ih =>
      subst cursor_eq
      obtain ⟨world, answered⟩ := answered
      cases pulled : run.pull world with
      | ended emitted left => simp [next, ofRun, pulled] at answered
      | item head emitted left rest =>
          simp only [next, ofRun, pulled, Prod.mk.injEq, Option.some.injEq] at answered
          obtain ⟨rfl, rfl⟩ := answered
          obtain ⟨items, given, member⟩ := ih rfl
          exact ⟨_, Run.gives_of_item pulled given, List.mem_cons_of_mem _ member⟩

namespace Grammar

variable {grammar : Grammar H} {input : Text} {options : ParseOptions}

theorem result?_eq_ok {item : Item H} {result : ParseResult H}
    (kept : options.result? item = some (.ok result)) :
    ∃ branch, item = .ok branch ∧ result = branch.toResult ∧
      (options.requireEntireInput = true → branch.hasInput = false) := by
  cases item with
  | error cause => simp [ParseOptions.result?] at kept
  | ok branch =>
      simp only [ParseOptions.result?] at kept
      split at kept
      · contradiction
      · rename_i allowed
        cases kept
        exact ⟨branch, rfl, rfl, fun required => by simpa [required] using allowed⟩

theorem yields_select {run : Run H (Item H)} {result : Except Error (ParseResult H)}
    (yielded : (options.select run).Yields result) :
    ∃ item, run.Yields item ∧ options.result? item = some result := by
  rw [ParseOptions.select] at yielded
  cases cap : options.maxResults with
  | none =>
      rw [cap] at yielded
      exact Run.yields_filterMap yielded
  | some cap' =>
      rw [cap] at yielded
      exact Run.yields_filterMap (Run.yields_capped yielded)

/-- Every answer of a parse comes from an item of the root parser on a fresh branch. -/
theorem yields_parse {cursor : Cursor H (Except Error (ParseResult H))}
    {result : Except Error (ParseResult H)} (begun : (grammar.parse input options).Results cursor)
    (yielded : cursor.Yields result) :
    ∃ root item, (Branch.root input grammar.holder).Results root ∧
      (grammar.parser.start root).Yields item ∧ options.result? item = some result := by
  obtain ⟨results, answered, made⟩ := Action.results_bind begun
  cases Action.results_pure made
  obtain ⟨root, rooted, selected⟩ := Action.results_bind answered
  obtain ⟨run, started, made⟩ := Action.results_bind selected
  cases Action.results_pure made
  obtain ⟨item, found, kept⟩ := yields_select (Cursor.run_yields yielded)
  exact ⟨root, item, rooted, Action.yields_of_results started found, kept⟩

theorem gives_results {answers : List (Except Error (ParseResult H))}
    (gives : (grammar.results input {}).Gives answers) :
    ∃ root items, (Branch.root input grammar.holder).Results root ∧
      (grammar.parser.start root).Gives items ∧
      answers = items.filterMap ({} : ParseOptions).result? := by
  obtain ⟨root, rooted, selected⟩ := Action.gives_bind gives
  obtain ⟨run, started, given⟩ := Action.gives_bind selected
  obtain ⟨items, pulled, kept⟩ := Run.gives_filterMap (Action.gives_pure given)
  exact ⟨root, items, rooted, ⟨run, started, pulled⟩, kept⟩

/-- What holds of all that a parse can answer holds of the results collected from it. -/
theorem parseAll_of_gives {P : List (ParseResult H) → Prop}
    (answers : ∀ answers, (grammar.results input options).Gives answers →
      ∃ results : List (ParseResult H), answers = results.map .ok ∧ P results)
    (world : H.World) :
    ∃ results, ((grammar.parseAll input options) world).result = .ok results ∧ P results := by
  let begun := grammar.results input options world
  have begins : (grammar.results input options).Results begun.result := ⟨world, rfl⟩
  rcases begun.result.collect_cases begun.world with
    ⟨results, collected, gives⟩ | ⟨items, cause, gives, member⟩
  · obtain ⟨others, same, holds⟩ := answers _ ⟨_, begins, gives⟩
    have equal : results = others :=
      List.map_injective_iff.mpr (fun _ _ => Except.ok.inj) same
    exact ⟨results, collected, equal ▸ holds⟩
  · obtain ⟨results, rfl, _⟩ := answers _ ⟨_, begins, gives⟩
    simp at member

end Grammar

end Typeahead
