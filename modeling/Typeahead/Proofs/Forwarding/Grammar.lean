import Typeahead.Proofs.Forwarding.Tree

namespace Typeahead

/-! Results of a tree within a definition that notes what it is forwarded.

Where the tree only branches, its results are those of the tree that notes its texts
itself.  A sequence finishes all branches of a child before it goes on, so the texts
of several branches wait together and go to the branch that comes first; a pick copies
a branch before that has been handed its texts. -/

namespace Defined

variable {settings : Settings Host.notes}

theorem deliver_gather (gathers : settings.onEmission = some gather) {branch : Branch Host.notes}
    {values : List Text} {item : Item Host.notes}
    (answered : (deliver settings (.ok branch, values)).Results item) :
    item = .ok { branch with data := branch.data ++ values } := by
  obtain ⟨last, folded, made⟩ := Action.results_bind answered
  rw [Action.results_pure made]
  clear made answered
  induction values generalizing branch with
  | nil =>
      rw [Action.results_pure folded, List.append_nil]
  | cons value values ih =>
      rw [List.foldlM_cons] at folded
      obtain ⟨middle, emitted, rest⟩ := Action.results_bind folded
      rw [Settings.emit_gather gathers emitted] at rest
      rw [ih rest]
      simp [Emission.texts]

/-- Where errors are owed nothing, every item is handed what was emitted for it. -/
theorem handed_owed {items : List (Item Host.notes)} {entries : List (List Text × Item Host.notes)}
    (owed : List.Forall₂ (fun item entry => Item.Owed entry.1 item entry.2) items entries) :
    Trace.handed (H := Host.notes) takesValues [] entries = entries.map Prod.swap := by
  induction owed with
  | nil => rfl
  | @cons item entry _ _ first _ ih =>
      obtain ⟨emitted, head⟩ := entry
      cases first with
      | ok twins => simp [Trace.handed, takesValues, ih]
      | error twins => simp [Trace.handed, takesValues, ih]

theorem deliver_owed (gathers : settings.onEmission = some gather) {emitted : List Text}
    {item head delivered : Item Host.notes} (owed : Item.Owed emitted item head)
    (answered : (deliver settings (head, emitted)).Results delivered) :
    Item.Twins .sameData item delivered := by
  cases owed with
  | ok twins =>
      rw [deliver_gather gathers answered]
      exact .ok twins
  | error twins =>
      rw [Action.results_pure answered]
      exact .error twins

end Defined

/-- Where the parsers around do not count, a branch may leave one more of them. -/
theorem Item.Twins.popped {H : Host} {like : Likeness H} {item item' : Item H}
    (loose : like.sameStack = false) (twins : Item.Twins like item item') :
    Item.Twins like item (item'.map Branch.popStack) := by
  cases twins with
  | ok twins => exact .ok (twins.withStack loose _)
  | error twins => exact .error twins

theorem Item.Twins.carried {H : Host} {item head delivered : Item H}
    (twins : Item.Twins .sameParts item head) (carries : head.Carries delivered) :
    Item.Twins .sameParts item delivered := by
  cases carries with
  | error cause => exact twins
  | ok branch data =>
      cases twins with
      | ok twins => exact .ok { twins with data := trivial }

namespace Rule

variable {rule : Rule Host.notes} {name : String} {inner forwarded direct : Parser Host.notes}
  {root twin : Branch Host.notes}

/-- The settings of a definition that notes what it is forwarded. -/
def noting : Settings Host.notes := RuleOptions.settings { onEmission := some gather } []

theorem relay_startOn (built : (rule.handled forward).build = .ok inner)
    (branch : Branch Host.notes) : (rule.relay name).startOn branch = inner.start branch := by
  simp only [Defined.startOn, relay, pure_bind, built]

theorem gives_forwarding {items : List (Item Host.notes)}
    (built : (rule.handled forward).build = .ok inner)
    (built' : (rule.forwarding name).build = .ok forwarded) (unfinished : twin.isFinished = false)
    (gives : (forwarded.start twin).Gives items) :
    ∃ trace delivered, (inner.start (twin.pushStack name)).Traces trace ∧
      List.Forall₂ (fun pair item => (Defined.deliver noting pair).Results item)
        (Trace.handed Defined.takesValues [] trace.items) delivered ∧
      items = delivered.map (·.map Branch.popStack) := by
  obtain ⟨parsers, none_below, made⟩ := build_eq_ok built'
  rw [buildAll] at none_below
  cases none_below
  obtain ⟨prepared, _, completed, rfl⟩ := Matcher.build_eq_ok made
  cases completed
  obtain ⟨delivered, stepped, rfl⟩ := Parser.gives_around unfinished rfl rfl gives
  obtain ⟨trace, traced, handed⟩ := Defined.gives_step stepped
  rw [relay_startOn built] at traced
  exact ⟨trace, delivered, traced, handed, rfl⟩

theorem forwarded_sameParts (textual : rule.Every fun kind _ => kind.isTextual true = true)
    (built : (rule.handled gather).build = .ok direct)
    (built' : (rule.forwarding name).build = .ok forwarded) (unfinished : twin.isFinished = false)
    (twins : root.Twins .sameParts twin) :
    Action.Twins .sameParts (direct.start root) (forwarded.start twin) := by
  obtain ⟨inner, builtInner, agree⟩ := handled_twins forward textual built
  intro run run' begun begun' items items' given given'
  obtain ⟨trace, delivered, traced, handed, rfl⟩ :=
    gives_forwarding builtInner built' unfinished ⟨run', begun', given'⟩
  have found := (agree root _ (twins.withStack rfl (twin.stack ++ [name]))).gives
    ⟨run, begun, given⟩ (Action.gives_of_traces traced)
  rw [Trace.heads, ← Trace.handed_fst Defined.takesValues [] trace.items] at found
  refine List.forall₂_map_right_iff.mpr
    (forall₂_of_common (List.forall₂_map_right_iff.mp found).flip handed ?_)
  rintro ⟨head, values⟩ item delivered same answered
  exact (same.carried (Defined.deliver_results answered)).popped rfl

theorem forwarded_sameData
    (branching : rule.Every fun kind options => kind.isBranching = true ∧ options.Quiet)
    (built : (rule.handled gather).build = .ok direct)
    (built' : (rule.forwarding name).build = .ok forwarded) (unfinished : twin.isFinished = false)
    (beside : root.Beside twin) :
    Action.Twins .sameData (direct.start root) (forwarded.start twin) := by
  obtain ⟨inner, builtInner, forwards⟩ := handled_forwards branching built
  intro run run' begun begun' items items' given given'
  obtain ⟨trace, delivered, traced, handed, rfl⟩ :=
    gives_forwarding builtInner built' unfinished ⟨run', begun', given'⟩
  have entered : root.Beside (twin.pushStack name) :=
    ⟨beside.twins.withStack rfl (twin.stack ++ [name]), beside.silent⟩
  have settled := (forwards root _ entered).settles ⟨run, begun, given⟩ traced
  rw [Defined.handed_owed settled.items, List.forall₂_map_left_iff] at handed
  refine List.forall₂_map_right_iff.mpr (forall₂_of_common settled.items.flip handed ?_)
  rintro ⟨emitted, head⟩ item delivered owed answered
  exact (Defined.deliver_owed rfl owed answered).popped rfl

end Rule

namespace Grammar

variable {rule : Rule Host.notes} {name : String} {direct forwarded : Parser Host.notes}

/-- Forwarding changes no parts, and no notes either where the tree only branches. -/
theorem forwarded_results {input : Text} {options : ParseOptions}
    {answers answers' : List (Except Error (ParseResult Host.notes))}
    (textual : rule.Every fun kind _ => kind.isTextual true = true)
    (built : (rule.handled gather).build = .ok direct)
    (built' : (rule.forwarding name).build = .ok forwarded)
    (gives : ((notes direct).results input options).Gives answers)
    (gives' : ((notes forwarded).results input options).Gives answers') :
    List.Forall₂ (Answer.Twins .sameParts) answers answers' ∧
      ((rule.Every fun kind options => kind.isBranching = true ∧ options.Quiet) →
        List.Forall₂ (Answer.Twins .sameData) answers answers') := by
  constructor
  · have agree : ((notes direct).results input options).Agree
        (Run.Agree (Answer.Twins .sameParts)) ((notes forwarded).results input options) := by
      refine results_twins (Holder.twins_plain trivial) (Text.Alike.refl input) ?_ options
      intro root twin _ rooted twins
      obtain ⟨data, rfl⟩ := Branch.root_results rooted
      exact Rule.forwarded_sameParts textual built built' rfl twins
    exact agree.gives gives gives'
  · intro branching
    have agree : ((notes direct).results input options).Agree
        (Run.Agree (Answer.Twins .sameData)) ((notes forwarded).results input options) := by
      refine results_twins (Holder.twins_plain rfl) (Text.Alike.refl input) ?_ options
      intro root twin _ rooted twins
      obtain ⟨data, rfl⟩ := Branch.root_results rooted
      exact Rule.forwarded_sameData branching built built' rfl ⟨twins, fun _ _ => rfl⟩
    exact agree.gives gives gives'

/-- A choice of texts, one of which may be left out. -/
def menu : Rule Host.notes :=
  .node .fork {} [
    .node (.literal { text := ['t', 'e', 'a'] }) {} [],
    .node .optional {} [.node (.literal { text := ['T', 'e'] }) {} []]]

theorem menu_every {P : Kind Host.notes → RuleOptions Host.notes → Prop}
    (choice : P .fork {}) (option : P .optional {})
    (texts : ∀ shape, P (.literal shape) {}) : menu.Every P := by
  have text : ∀ shape, Rule.Every P (.node (.literal shape) {} []) := fun shape =>
    .node (texts shape) (by simp)
  refine .node choice ?_
  intro child member
  simp only [List.mem_cons, List.not_mem_nil, or_false] at member
  rcases member with rfl | rfl
  · exact text _
  · refine .node option ?_
    intro child member
    rw [List.mem_singleton.mp member]
    exact text _

theorem forwarded_results_menu : ∃ direct forwarded answers answers',
    (menu.handled gather).build = .ok direct ∧
    (menu.forwarding "order").build = .ok forwarded ∧
    ((notes direct).results ['t', 'e', 'a'] { requireEntireInput := false }).Gives answers ∧
    ((notes forwarded).results ['t', 'e', 'a'] { requireEntireInput := false }).Gives answers' ∧
    answers.map (·.toOption.map (·.data)) = [some [['t', 'e', 'a']], some [], some [['T', 'e']]] ∧
    List.Forall₂ (Answer.Twins .sameParts) answers answers' ∧
    List.Forall₂ (Answer.Twins .sameData) answers answers' := by
  obtain ⟨direct, built⟩ : ∃ direct, (menu.handled gather).build = .ok direct := ⟨_, rfl⟩
  obtain ⟨forwarded, built'⟩ : ∃ forwarded, (menu.forwarding "order").build = .ok forwarded :=
    ⟨_, rfl⟩
  have noted : (menu.handled gather).build.toOption.all (fun parser =>
      let begun := (notes parser).results ['t', 'e', 'a'] { requireEntireInput := false } ()
      (begun.result.toList ()).result.map (·.toOption.map (·.data)) =
        [some [['t', 'e', 'a']], some [], some [['T', 'e']]]) = true := by decide +kernel
  rw [built] at noted
  have gives := fun parser => Run.gives_toList
    ((notes parser).results ['t', 'e', 'a'] { requireEntireInput := false } ()).result ()
  have textual : menu.Every fun kind _ => kind.isTextual true = true :=
    menu_every rfl rfl fun _ => rfl
  have branching : menu.Every fun kind options => kind.isBranching = true ∧ options.Quiet :=
    menu_every ⟨rfl, fun _ _ => rfl⟩ ⟨rfl, fun _ _ => rfl⟩ fun _ => ⟨rfl, fun _ _ => rfl⟩
  obtain ⟨parts, data⟩ := forwarded_results textual built built'
    ⟨_, ⟨(), rfl⟩, gives direct⟩ ⟨_, ⟨(), rfl⟩, gives forwarded⟩
  exact ⟨direct, forwarded, _, _, built, built', ⟨_, ⟨(), rfl⟩, gives direct⟩,
    ⟨_, ⟨(), rfl⟩, gives forwarded⟩, of_decide_eq_true noted, parts, data branching⟩

/-- Two readings of a word, by where it is cut. -/
def tangle : Rule Host.notes :=
  .node .sequence {} [
    .node .fork {} [
      .node (.literal { text := ['a'] }) {} [],
      .node (.literal { text := ['a', 'b'] }) {} []],
    .node .fork {} [
      .node (.literal { text := ['b', 'c'] }) {} [],
      .node (.literal { text := ['c'] }) {} []]]

def pair : Rule Host.notes :=
  .node (.pick {}) {} [
    .node (.literal { text := ['a'] }) {} [],
    .node (.literal { text := ['b'] }) {} []]

/-- What a tree notes when its branches are pulled one after the other. -/
def notesOf (parser : Except Error (Parser Host.notes)) (input : Text) :
    Option (List (Option (List Text))) :=
  parser.toOption.map fun parser =>
    ((((notes parser).results input {}) ()).result.toList ()).result.map
      (·.toOption.map (·.data))

/-- Behind a sequence the first branch is handed the notes of all, and the copy that a
pick goes on with lacks the notes that were made before. -/
theorem forwarding_leaks :
    notesOf (tangle.handled gather).build ['a', 'b', 'c'] =
        some [some [['a'], ['b', 'c']], some [['a', 'b'], ['c']]] ∧
      notesOf (tangle.forwarding "word").build ['a', 'b', 'c'] =
        some [some [['a'], ['a', 'b'], ['b', 'c'], ['c']], some []] ∧
      notesOf (pair.handled gather).build ['a', 'b'] = some [some [['a'], ['b']]] ∧
      notesOf (pair.forwarding "word").build ['a', 'b'] = some [some [['b']]] := by
  refine ⟨?_, ?_, ?_, ?_⟩ <;> decide +kernel

end Grammar

end Typeahead
