import Typeahead.Proofs.Notes
import Typeahead.Proofs.Refactoring.Echo
import Typeahead.Proofs.Selection

namespace Typeahead

/-! Changes of a grammar that leave what it finds as it is.

A plain sequence in a plain sequence may give its children to the outer one, and so may
a fork in a fork; and what follows a fork may follow each of its children instead.  The
grammar before and the one after echo one and the same stage. -/

variable {H : Host}

namespace Rule

variable {before after first second last : Rule H} {rules front inner back : List (Rule H)}

def Builds (rule : Rule H) : Prop := ∃ parser, rule.build = .ok parser

theorem buildAll_builds :
    (∃ parsers, buildAll rules = .ok parsers) ↔ ∀ rule ∈ rules, rule.Builds := by
  constructor
  · rintro ⟨parsers, built⟩ rule member
    obtain ⟨parser, _, found⟩ := exists_of_mem_forall₂ (buildAll_eq_ok built).flip member
    exact ⟨parser, found⟩
  · intro builds
    induction rules with
    | nil => exact ⟨[], by rw [buildAll]; rfl⟩
    | cons rule others ih =>
        obtain ⟨parser, first⟩ := builds rule List.mem_cons_self
        obtain ⟨parsers, rest⟩ :=
          ih fun other member => builds other (List.mem_cons_of_mem rule member)
        refine ⟨parser :: parsers, ?_⟩
        rw [buildAll, first, rest]
        rfl

/-- What asks for nothing but children builds if it has some and all of them build. -/
theorem node_builds {kind : Kind H} {options : RuleOptions H} {name : String}
    (checks : ∀ settings, kind.matcher.check settings = settings.requireChildren name)
    (prepares : kind.matcher.prepare = .ok) :
    (node kind options rules).Builds ↔ rules ≠ [] ∧ ∀ rule ∈ rules, rule.Builds := by
  rw [← buildAll_builds]
  constructor
  · rintro ⟨parser, built⟩
    obtain ⟨parsers, below, made⟩ := build_eq_ok built
    obtain ⟨_, checked, _, _⟩ := Matcher.build_eq_ok made
    refine ⟨?_, parsers, below⟩
    rintro rfl
    rw [buildAll] at below
    cases below
    rw [checks] at checked
    contradiction
  · rintro ⟨nonempty, parsers, below⟩
    have some_built : parsers ≠ [] := by
      rintro rfl
      exact nonempty (List.forall₂_nil_right_iff.mp (buildAll_eq_ok below))
    have checked : kind.matcher.check (options.settings parsers) = .ok () := by
      rw [checks, Settings.requireChildren]
      exact if_neg (by simpa [RuleOptions.settings] using some_built)
    refine ⟨.around kind.matcher.name (options.enabled kind) (options.settings parsers)
      (kind.matcher.step (options.settings parsers)), ?_⟩
    rw [build, below]
    change kind.matcher.build _ _ = _
    rw [Matcher.build, checked, prepares]
    rfl

theorem sequence_builds :
    (node .sequence {} rules).Builds ↔ rules ≠ [] ∧ ∀ rule ∈ rules, rule.Builds :=
  node_builds (fun _ => rfl) rfl

theorem fork_builds :
    (node .fork {} rules).Builds ↔ rules ≠ [] ∧ ∀ rule ∈ rules, rule.Builds :=
  node_builds (fun _ => rfl) rfl

/-- A change at the root of a tree of plain sequences and forks. -/
inductive Refactors : Rule H → Rule H → Prop
  | sequence (front inner back : List (Rule H)) (nonempty : inner ≠ []) :
      Refactors (.node .sequence {} (front ++ [.node .sequence {} inner] ++ back))
        (.node .sequence {} (front ++ inner ++ back))
  | fork (front inner back : List (Rule H)) (nonempty : inner ≠ []) :
      Refactors (.node .fork {} (front ++ [.node .fork {} inner] ++ back))
        (.node .fork {} (front ++ inner ++ back))
  | distribute (first second last : Rule H) :
      Refactors (.node .sequence {} [.node .fork {} [first, second], last])
        (.node .fork {} [.node .sequence {} [first, last], .node .sequence {} [second, last]])

theorem Refactors.builds (refactors : before.Refactors after) : before.Builds ↔ after.Builds := by
  cases refactors with
  | sequence front inner back nonempty =>
      simp [sequence_builds, nonempty, or_imp, forall_and]
  | fork front inner back nonempty =>
      simp [fork_builds, nonempty, or_imp, forall_and]
  | distribute first second last =>
      simp only [sequence_builds, fork_builds, List.forall_mem_cons, ne_eq, List.cons_ne_nil,
        not_false_eq_true, true_and]
      tauto

theorem echoes_own (steady : ∀ rule ∈ rules, rule.Steady) :
    List.Forall₂ (fun rule twin => rule.stage.Echoes twin) rules (rules.map stage) :=
  List.forall₂_map_right_iff.mpr
    (List.forall₂_same.mpr fun rule member => (steady rule member).echoes)

theorem passes_of_mem_map {twin : Stage H} (member : twin ∈ rules.map stage) : twin.Passes := by
  obtain ⟨rule, _, rfl⟩ := List.mem_map.mp member
  exact rule.stage_passes

theorem total_of_mem_map (builds : ∀ rule ∈ rules, rule.Builds) (world : H.World)
    {twin : Stage H} (member : twin ∈ rules.map stage) : twin.Total := by
  obtain ⟨rule, among, rfl⟩ := List.mem_map.mp member
  obtain ⟨parser, built⟩ := builds rule among
  exact stage_total built world

theorem Steady.children {kind : Kind H} {options : RuleOptions H}
    (steady : (node kind options rules).Steady) : ∀ rule ∈ rules, rule.Steady := by
  cases steady with
  | node _ below => exact below

theorem Steady.flat {kind kind' : Kind H} {options options' : RuleOptions H}
    (steady : (node kind options (front ++ [node kind' options' inner] ++ back)).Steady) :
    ∀ rule ∈ front ++ inner ++ back, rule.Steady := by
  have members := steady.children
  simp only [List.forall_mem_append, List.forall_mem_singleton] at members ⊢
  exact ⟨⟨members.1.1, members.1.2.children⟩, members.2⟩

/-! ### One stage for both trees -/

theorem sequence_flattens (steady : ∀ rule ∈ front ++ inner ++ back, rule.Steady) :
    (node .sequence {} (front ++ [node .sequence {} inner] ++ back)).stage.Echoes
      (Stage.chain ((front ++ inner ++ back).map stage)) := by
  simp only [List.forall_mem_append] at steady
  obtain ⟨⟨inFront, within⟩, behind⟩ := steady
  have nested := sequence_echoes (fun _ => passes_of_mem_map) (echoes_own within)
  rw [List.map_append, List.map_append, ← Stage.chain_flatten]
  apply sequence_echoes
  · simp only [List.forall_mem_append, List.forall_mem_cons]
    exact ⟨fun _ => passes_of_mem_map, Stage.chain_passes fun _ => passes_of_mem_map,
      fun _ => passes_of_mem_map⟩
  · rw [List.append_assoc]
    exact List.rel_append (echoes_own inFront) (.cons nested (echoes_own behind))

theorem fork_flattens (steady : ∀ rule ∈ front ++ inner ++ back, rule.Steady) :
    (node .fork {} (front ++ [node .fork {} inner] ++ back)).stage.Echoes
      (Stage.choice ((front ++ inner ++ back).map stage)) := by
  simp only [List.forall_mem_append] at steady
  obtain ⟨⟨inFront, within⟩, behind⟩ := steady
  have nested := fork_echoes (echoes_own within)
  rw [List.map_append, List.map_append, ← Stage.choice_flatten]
  apply fork_echoes
  rw [List.append_assoc]
  exact List.rel_append (echoes_own inFront) (.cons nested (echoes_own behind))

theorem fork_distributes (steady : ∀ rule ∈ [first, second], rule.Steady) (ending : last.Steady) :
    (node .fork {} [node .sequence {} [first, last], node .sequence {} [second, last]]).stage.Echoes
      (Stage.chain [.choice ([first, second].map stage), last.stage]) := by
  have each : ∀ rule ∈ [first, second],
      (node .sequence {} [rule, last]).stage.Echoes (rule.stage.andThen last.stage) := by
    intro rule member
    have own : ∀ child ∈ [rule, last], child.Steady :=
      List.forall_mem_cons.mpr ⟨steady rule member, List.forall_mem_singleton.mpr ending⟩
    have chained := sequence_echoes (fun _ => passes_of_mem_map) (echoes_own own)
    rwa [List.map_cons, List.map_singleton, Stage.chain_pair] at chained
  have both := fork_echoes (.cons (each first (by simp)) (.cons (each second (by simp)) .nil))
  -- a finished branch is passed on by the whole choice here, and by the ending behind it there
  apply both.narrow
  intro branch left continued
  rw [Stage.chain_pair] at continued
  exact Stage.choice_of_andThen last.stage_passes continued

/-- Both trees echo one stage, which has an outcome for every branch. -/
theorem Refactors.meet (refactors : before.Refactors after) (steady : before.Steady)
    (builds : before.Builds) (world : H.World) :
    ∃ middle : Stage H, middle.Total ∧ before.stage.Echoes middle ∧ after.stage.Echoes middle := by
  have builds' := refactors.builds.mp builds
  cases refactors with
  | sequence front inner back _ =>
      have flat := steady.flat
      refine ⟨Stage.chain ((front ++ inner ++ back).map stage), ?_, sequence_flattens flat, ?_⟩
      · exact Stage.chain_total fun _ => total_of_mem_map (sequence_builds.mp builds').2 world
      · exact sequence_echoes (fun _ => passes_of_mem_map) (echoes_own flat)
  | fork front inner back _ =>
      have flat := steady.flat
      refine ⟨Stage.choice ((front ++ inner ++ back).map stage), ?_, fork_flattens flat, ?_⟩
      · exact Stage.choice_total fun _ => total_of_mem_map (fork_builds.mp builds').2 world
      · exact fork_echoes (echoes_own flat)
  | distribute first second last =>
      have flat : ∀ rule ∈ [] ++ [first, second] ++ [last], rule.Steady := steady.flat
      obtain ⟨inside, ending⟩ := List.forall_mem_append.mp flat
      have ending := List.forall_mem_singleton.mp ending
      obtain ⟨inFork, ends⟩ := List.forall_mem_cons.mp (sequence_builds.mp builds).2
      refine ⟨Stage.chain [.choice ([first, second].map stage), last.stage], ?_, ?_,
        fork_distributes inside ending⟩
      · have chosen : (Stage.choice ([first, second].map stage)).Total :=
          Stage.choice_total fun _ => total_of_mem_map (fork_builds.mp inFork).2 world
        obtain ⟨parser, built⟩ := ends last List.mem_cons_self
        apply Stage.chain_total
        rw [List.forall_mem_cons, List.forall_mem_singleton]
        exact ⟨chosen, stage_total built world⟩
      · have chosen := fork_echoes (echoes_own inside)
        refine sequence_echoes ?_ (.cons chosen (.cons ending.echoes .nil))
        rw [List.forall_mem_cons, List.forall_mem_singleton]
        exact ⟨Stage.choice_passes _, last.stage_passes⟩

end Rule

theorem Sequence.branchesOf_eq (items : List (Item H)) :
    branchesOf items = items.filterMap Except.toOption := by
  rw [branchesOf]
  congr
  funext item
  cases item <;> rfl

namespace Grammar

variable {before after : Rule H} {holder : Holder H} {input : Text} {options : ParseOptions}

theorem stage_of_gives {grammar : Grammar H} {answers : List (Except Error (ParseResult H))}
    (gives : (grammar.results input options).Gives answers) :
    ∃ root left, (Branch.root input grammar.holder).Results root ∧
      grammar.parser.stage root left ∧
      answers.filterMap Except.toOption = options.keep (left.map Branch.toResult) := by
  obtain ⟨root, rooted, selected⟩ := Action.gives_bind gives
  obtain ⟨run, started, given⟩ := Action.gives_bind selected
  obtain ⟨items, pulled, selects⟩ := options.selects_of_gives (Action.gives_pure given)
  refine ⟨root, _, rooted, ⟨items, ⟨run, started, pulled⟩, rfl⟩, ?_⟩
  rw [Sequence.branchesOf_eq]
  exact selects.results

/-- A tree and what it is refactored to build alike, and whatever the owner does between
the pulls, both have the same results in the same order, with the same parts, score, data
and remaining input. -/
theorem refactoring_keeps_results (refactors : before.Refactors after) (steady : before.Steady)
    (begins : holder.init.Steady) (plain : holder.CopiesPlainly) :
    (before.Builds ↔ after.Builds) ∧
    ∀ parser parser', before.build = .ok parser → after.build = .ok parser' →
      ∀ input options answers answers',
        (Grammar.results { parser, holder } input options).Gives answers →
        (Grammar.results { parser := parser', holder } input options).Gives answers' →
        answers.filterMap Except.toOption = answers'.filterMap Except.toOption := by
  refine ⟨refactors.builds, ?_⟩
  intro parser parser' built built' input options answers answers' gives gives'
  obtain ⟨root, left, rooted, ran, shown⟩ := stage_of_gives gives
  obtain ⟨root', left', rooted', ran', shown'⟩ := stage_of_gives gives'
  have same := Branch.Echoes.root plain begins rooted rooted'
  have same' := Branch.Echoes.root plain begins rooted' rooted'
  obtain ⟨world, _⟩ := rooted
  -- what the two trees leave is compared with what the stage they share makes of one root
  obtain ⟨middle, total, echoes, echoes'⟩ := refactors.meet steady ⟨parser, built⟩ world
  obtain ⟨between, reached⟩ := total root'
  have first := echoes root root' same left between ⟨parser, built, ran⟩ reached
  have second := echoes' root' root' same' left' between ⟨parser', built', ran'⟩ reached
  rw [shown, shown', Branch.Echoes.results_eq first, Branch.Echoes.results_eq second]

/-- A literal that notes down what it found. -/
def noting (text : Text) : Rule Host.notes :=
  .node (.literal { text }) { onEmission := some gather } []

theorem noting_steady (text : Text) : (noting text).Steady := by
  refine .node ⟨rfl, ?_, RuleOptions.steady_of_gather rfl⟩ (by simp)
  rintro freetext ⟨⟩

/-- Two beginnings with one ending. -/
def oneEnding : Rule Host.notes :=
  .node .sequence {} [.node .fork {} [noting ['a'], noting ['a', 'b']], noting ['b', 'c']]

/-- Two beginnings, each with its own ending. -/
def ownEndings : Rule Host.notes :=
  .node .fork {} [.node .sequence {} [noting ['a'], noting ['b', 'c']],
    .node .sequence {} [noting ['a', 'b'], noting ['b', 'c']]]

theorem oneEnding_steady : oneEnding.Steady := by
  have silent : ({} : RuleOptions Host.notes).Steady := RuleOptions.steady_of_silent rfl
  refine .node ⟨rfl, by rintro _ ⟨⟩, silent⟩ ?_
  rw [List.forall_mem_cons, List.forall_mem_singleton]
  refine ⟨.node ⟨rfl, by rintro _ ⟨⟩, silent⟩ ?_, noting_steady _⟩
  rw [List.forall_mem_cons, List.forall_mem_singleton]
  exact ⟨noting_steady _, noting_steady _⟩

theorem refactoring_keeps_results_endings : ∃ parser parser' answers answers',
    oneEnding.build = .ok parser ∧ ownEndings.build = .ok parser' ∧
    (Grammar.results { parser, holder := .plain [] } ['a', 'b'] {}).Gives answers ∧
    (Grammar.results { parser := parser', holder := .plain [] } ['a', 'b'] {}).Gives answers' ∧
    (answers.filterMap Except.toOption).map (fun result => (result.spelled, result.data)) =
      [(['a', 'b', 'c'], [['a']]), (['a', 'b', 'b', 'c'], [['a', 'b']])] ∧
    answers.filterMap Except.toOption = answers'.filterMap Except.toOption := by
  obtain ⟨parser, built⟩ : ∃ parser, oneEnding.build = .ok parser := ⟨_, rfl⟩
  obtain ⟨parser', built'⟩ : ∃ parser', ownEndings.build = .ok parser' := ⟨_, rfl⟩
  have found : oneEnding.build.toOption.all (fun parser =>
      let grammar : Grammar Host.notes := { parser, holder := .plain [] }
      let begun := grammar.results ['a', 'b'] {} ()
      ((begun.result.toList ()).result.filterMap Except.toOption).map
          (fun result => (result.spelled, result.data)) =
        [(['a', 'b', 'c'], [['a']]), (['a', 'b', 'b', 'c'], [['a', 'b']])]) = true := by
    decide +kernel
  rw [built] at found
  have refactored : oneEnding.Refactors ownEndings := .distribute _ _ _
  have copies : (Holder.plain ([] : List Text) : Holder Host.notes).CopiesPlainly :=
    fun _ _ answered => Action.results_pure answered
  have gives := fun parser : Parser Host.notes => Action.gives_toList
    (Grammar.results { parser, holder := .plain [] } ['a', 'b'] {}) () ()
  have kept := refactoring_keeps_results refactored oneEnding_steady (fun _ _ => rfl) copies
  exact ⟨parser, parser', _, _, built, built', gives parser, gives parser',
    of_decide_eq_true found, kept.2 parser parser' built built' _ _ _ _ (gives parser)
      (gives parser')⟩

end Grammar

end Typeahead
