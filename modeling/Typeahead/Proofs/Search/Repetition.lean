import Typeahead.Matcher.Repetition
import Typeahead.Proofs.Branch.Reading
import Typeahead.Proofs.Parser
import Typeahead.Proofs.Rule
import Typeahead.Proofs.Run.Search

namespace Typeahead

/-! What a repetition finds.

An address is one occurrence behind the other: the first step leads to what the child
finds at once, and every further step is named by the glue in front of the occurrence.
A glue that is not typed in full leads no further than to itself, and where nothing is
left to be typed a placeholder may stand for the next occurrence. -/

variable {H : Host}

namespace Branch

variable {branch : Branch H}

/-- A branch that holds the place of further text open. -/
def heldOpen (branch : Branch H) (text : Text) : Branch H :=
  ((branch.leaveInput text).withPart { content := text, kind := .placeholder }).finish

theorem heldOpen_isFinished (text : Text) : (branch.heldOpen text).isFinished = true := rfl

end Branch

namespace Repetition

/-- What a glue leads to: it is read and the child goes on, it is offered, or it is
passed over. -/
inductive Glues (child : Parser H) (branch : Branch H) (glue : Text) : List (Item H) → Prop
  | typed {spelled rest : Text} {items : List (Item H)} (split : branch.input = spelled ++ rest)
      (alike : Text.Alike false spelled glue)
      (continued : (child.start (branch.read none spelled glue)).Gives items) :
      Glues child branch glue items
  | pending {typed pending : Text} (split : glue = typed ++ pending) (left : pending ≠ [])
      (alike : Text.Alike false typed branch.input) :
      Glues child branch glue [.ok (branch.offered none typed pending)]
  | unlike
      (unread : ∀ spelled rest, branch.input = spelled ++ rest → ¬ Text.Alike false spelled glue)
      (unoffered : ∀ typed pending, glue = typed ++ pending →
        ¬ Text.Alike false typed branch.input) :
      Glues child branch glue []

/-- A branch of so many occurrences behind which there may be another one. -/
structure Open (repetition : Repetition) (taken : Nat) (branch : Branch H) : Prop where
  within : taken < repetition.limit
  unfinished : branch.isFinished = false
  unsuggested : branch.hasKind .suggestion = false

/-- What is found behind so many occurrences. -/
inductive Goes (repetition : Repetition) (child : Parser H) :
    Nat → Branch H → (Nat → List (Item H)) → Prop
  | first {branch : Branch H} {heads : Nat → List (Item H)}
      (started : (child.start branch).Gives (heads 0))
      (only : ∀ alternative, heads (alternative + 1) = []) :
      Goes repetition child 0 branch heads
  | closed {taken : Nat} {branch : Branch H} (closed : ¬ repetition.Open (taken + 1) branch) :
      Goes repetition child (taken + 1) branch fun _ => []
  | heldOpen {taken : Nat} {branch : Branch H} {heads : Nat → List (Item H)} {text : Text}
      (allowed : repetition.Open (taken + 1) branch) (wanted : branch.wantsPlaceholder = true)
      (placeholder : repetition.placeholder? = some text)
      (shown : heads 0 = [.ok (branch.heldOpen text)])
      (only : ∀ alternative, heads (alternative + 1) = []) :
      Goes repetition child (taken + 1) branch heads
  | glued {taken : Nat} {branch : Branch H} {heads : Nat → List (Item H)}
      (allowed : repetition.Open (taken + 1) branch) (unwanted : branch.wantsPlaceholder = false)
      (glues : ∀ index glue, repetition.glue[index]? = some glue →
        ∃ copy, branch.fork.Results copy ∧ Glues child copy glue (heads index))
      (only : ∀ index, repetition.glue.length ≤ index → heads index = []) :
      Goes repetition child (taken + 1) branch heads

variable {repetition : Repetition} {child : Parser H} {branch : Branch H} {taken : Nat}
  {items : List (Item H)}

/-- How the search goes on behind so many occurrences. -/
def GoesFrom (repetition : Repetition) (child : Parser H) (taken : Nat) (front : Address) :
    Branch H → (Nat → List (Item H)) → Prop :=
  repetition.Goes child (taken + front.length)

theorem goesFrom_succ (repetition : Repetition) (child : Parser H) (taken : Nat)
    (step : Nat × Nat) (front : Address) :
    repetition.GoesFrom child (taken + 1) front =
      repetition.GoesFrom child taken (step :: front) := by
  rw [GoesFrom, GoesFrom, List.length_cons, Nat.add_right_comm, Nat.add_assoc]

/-- The search behind a further occurrence. -/
abbrev Onward (repetition : Repetition) (child : Parser H) (taken : Nat) :
    Item H → Findings (Item H) → Prop :=
  Findings.Further fun rest found => found.Follows (repetition.GoesFrom child taken) rest

/-- One alternative is listed alone. -/
theorem search_one {heads : List (Item H)} {parts : List (List (Item H))}
    (followed : List.Forall₂ (Findings.Followed (repetition.Onward child (taken + 1)))
      heads parts)
    (goes : ∀ all : Nat → List (Item H), all 0 = heads →
      (∀ alternative, all (alternative + 1) = []) →
      repetition.Goes child taken branch all) :
    ∃ findings : Findings (Item H), findings.Follows (repetition.GoesFrom child taken) branch ∧
      findings.Lists parts.flatten := by
  have grouped : List.Forall₂ (fun (_ : Unit) group => ∃ first others, first = heads ∧
      List.Forall₂ (Findings.Followed (repetition.Onward child (taken + 1))) first others ∧
      group = others.flatten) [()] [parts.flatten] :=
    .cons ⟨heads, parts, rfl, followed, rfl⟩ .nil
  have single : [()].Pairwise fun _ _ => 0 < 0 := List.pairwise_singleton _ _
  obtain ⟨findings, unfolds, lists⟩ := Findings.exists_lists single grouped
  refine ⟨findings, unfolds.follows (goes _ (unfolds.root () List.mem_cons_self) ?_) ?_, ?_⟩
  · intro alternative
    by_contra found
    obtain ⟨_, _, same⟩ := unfolds.only _ found
    contradiction
  · intro member _ place front rest heads found
    rwa [← goesFrom_succ]
  · simpa using lists

theorem closed_search (closed : ¬ repetition.Open (taken + 1) branch) :
    ∃ findings : Findings (Item H),
      findings.Follows (repetition.GoesFrom child (taken + 1)) branch ∧ findings.Lists [] :=
  ⟨.nothing, Findings.nothing_follows (.closed closed), Findings.lists_nothing⟩

theorem followed_closed {next : Branch H} (world : H.World)
    (closed : ∀ copy, next.fork.Results copy → ¬ repetition.Open (taken + 1) copy) :
    List.Forall₂ (Findings.Followed (repetition.Onward child (taken + 1)))
      [.ok next] [[.ok next]] := by
  have copied : next.fork.Results (next.fork world).result := ⟨world, rfl⟩
  obtain ⟨found, follows, lists⟩ := closed_search (closed _ copied)
  exact .cons ⟨[], found, .branch copied follows, lists, rfl⟩ .nil

theorem glued_search {extend : Branch H → Action H (Run H (Item H))} {glue : Text}
    (allowed : repetition.Open (taken + 1) branch) (filled : glue ≠ [])
    (searched : ∀ copy more, (extend copy).Gives more → ∃ found : Findings (Item H),
      found.Follows (repetition.GoesFrom child (taken + 2)) copy ∧ found.Lists more)
    (gives : (glued child extend branch glue).Gives items) :
    ∃ heads parts, (∃ copy, branch.fork.Results copy ∧ Glues child copy glue heads) ∧
      List.Forall₂ (Findings.Followed (repetition.Onward child (taken + 2))) heads parts ∧
      items = parts.flatten := by
  have input_copy : ∀ {copy : Branch H}, branch.fork.Results copy →
      copy.input = branch.input ∧ copy.hasKind .suggestion = false := by
    intro copy copied
    obtain ⟨data, rfl⟩ := Branch.fork_results copied
    exact ⟨rfl, allowed.unsuggested⟩
  have ⟨_, ⟨world, _⟩, _⟩ := gives
  unfold glued at gives
  cases found : Text.overlap? false branch.input glue with
  | none =>
      rw [found] at gives
      have copied : branch.fork.Results (branch.fork world).result := ⟨world, rfl⟩
      refine ⟨[], [], ⟨_, copied, .unlike ?_ ?_⟩, .nil, Run.gives_empty (Action.gives_pure gives)⟩
      all_goals rw [(input_copy copied).1]
      · intro spelled rest split alike
        have full := Text.overlap?_eq_full_iff.mpr ⟨rfl, spelled, split, alike⟩
        rw [found] at full
        contradiction
      · intro typed pending split alike
        by_cases left : pending = []
        · -- a glue that the input spells to its end is read
          have whole : glue = typed := by rw [split, left, List.append_nil]
          have full := Text.overlap?_eq_full_iff.mpr
            ⟨rfl, branch.input, (List.append_nil branch.input).symm, whole ▸ alike.symm⟩
          rw [found] at full
          contradiction
        · have begun := Text.overlap?_eq_begun_iff.mpr ⟨split, left, alike⟩
          rw [found] at begun
          contradiction
  | some overlap =>
      rw [found] at gives
      obtain ⟨copy, copied, joining⟩ := Action.gives_bind gives
      obtain ⟨same, unsuggested⟩ := input_copy copied
      rw [← same] at found
      cases overlap with
      | full matched rest =>
          obtain ⟨rfl, _⟩ := Text.overlap?_eq_full_iff.mp found
          obtain ⟨spelled, split, alike, added⟩ :=
            Branch.addOverlap_full unsuggested filled found none
          have typed : (copy.read none spelled matched).hasKind .suggestion = false := by
            rw [Branch.read_hasKind]
            exact unsuggested
          simp only [added, typed, Bool.false_eq_true, if_false] at joining
          obtain ⟨run, begun, extended⟩ := Action.gives_bind joining
          obtain ⟨heads, parts, given, followed, rfl⟩ :=
            Findings.followed_thenExtend (Action.gives_pure extended) searched
          exact ⟨heads, parts, ⟨copy, copied, .typed split alike ⟨run, begun, given⟩⟩,
            followed, rfl⟩
      | begun typed pending =>
          obtain ⟨split, left, alike⟩ := Text.overlap?_eq_begun_iff.mp found
          have offered : (copy.offered none typed pending).hasKind .suggestion = true :=
            Branch.offered_hasKind typed pending
          have added : copy.addOverlap none (.begun typed pending) =
              .ok (copy.offered none typed pending) :=
            Branch.addOverlap_begun (fun suggested => by simp [unsuggested] at suggested) found none
          simp only [added, offered, if_true] at joining
          refine ⟨_, _, ⟨copy, copied, .pending split left alike⟩, followed_closed world ?_,
            Run.gives_one (Action.gives_pure joining)⟩
          intro another copied' reopened
          obtain ⟨data, rfl⟩ := Branch.fork_results copied'
          have unsuggested' : (copy.offered none typed pending).hasKind .suggestion = false :=
            reopened.unsuggested
          rw [offered] at unsuggested'
          contradiction

theorem heldOpen_search {text : Text} (world : H.World)
    (allowed : repetition.Open (taken + 1) branch) (wanted : branch.wantsPlaceholder = true)
    (placeholder : repetition.placeholder? = some text) :
    ∃ findings : Findings (Item H),
      findings.Follows (repetition.GoesFrom child (taken + 1)) branch ∧
        findings.Lists [.ok (branch.heldOpen text)] := by
  have closed : ∀ copy, (branch.heldOpen text).fork.Results copy →
      ¬ repetition.Open (taken + 2) copy := by
    intro copy copied allowed
    obtain ⟨data, rfl⟩ := Branch.fork_results copied
    have unfinished : (branch.heldOpen text).isFinished = false := allowed.unfinished
    rw [Branch.heldOpen_isFinished] at unfinished
    contradiction
  exact search_one (followed_closed world closed) fun all same only =>
    .heldOpen allowed wanted placeholder same only

theorem glues_search {extend : Branch H → Action H (Run H (Item H))}
    (allowed : repetition.Open (taken + 1) branch) (unwanted : branch.wantsPlaceholder = false)
    (filled : ∀ glue ∈ repetition.glue, glue ≠ [])
    (searched : ∀ copy more, (extend copy).Gives more → ∃ found : Findings (Item H),
      found.Follows (repetition.GoesFrom child (taken + 2)) copy ∧ found.Lists more)
    (gives : Action.Gives (pure (.concatMap (glued child extend branch) repetition.glue)) items) :
    ∃ findings : Findings (Item H),
      findings.Follows (repetition.GoesFrom child (taken + 1)) branch ∧ findings.Lists items := by
  obtain ⟨groups, grouped, rfl⟩ := Run.gives_concatMap (Action.gives_pure gives)
  rw [← List.zipIdx_map_fst 0 repetition.glue, List.forall₂_map_left_iff] at grouped
  have searched' : List.Forall₂ (fun (member : Text × Nat) group => ∃ heads parts,
      (∃ copy, branch.fork.Results copy ∧ Glues child copy member.1 heads) ∧
      List.Forall₂ (Findings.Followed (repetition.Onward child (taken + 2))) heads parts ∧
      group = parts.flatten) repetition.glue.zipIdx groups := by
    refine ((List.forall₂_and_left _ _).mpr ⟨fun _ found => found, grouped⟩).imp ?_
    rintro ⟨glue, index⟩ group ⟨member, joined⟩
    exact glued_search allowed (filled glue (List.fst_mem_of_mem_zipIdx member)) searched joined
  obtain ⟨findings, unfolds, lists⟩ := Findings.exists_lists (Findings.zipIdx_ascending _) searched'
  refine ⟨findings, unfolds.follows (.glued allowed unwanted ?_ ?_) ?_, lists⟩
  · intro index glue present
    exact unfolds.root (glue, index) (List.mem_zipIdx_iff_getElem?.mpr present)
  · intro index beyond
    by_contra found
    obtain ⟨⟨glue, _⟩, member, rfl⟩ := unfolds.only index found
    rw [List.mem_zipIdx_iff_getElem?, List.getElem?_eq_none beyond] at member
    contradiction
  · intro member _ place front rest heads found
    rwa [← goesFrom_succ]

theorem exists_placeholder (some_glue : repetition.glue ≠ []) :
    ∃ text, repetition.placeholder? = some text := by
  rw [placeholder?]
  cases repetition.ownPlaceholder with
  | some text => exact ⟨text, rfl⟩
  | none =>
      obtain ⟨glue, others, same⟩ := List.exists_cons_of_ne_nil some_glue
      exact ⟨glue, by rw [same]; rfl⟩

theorem extensions_search {remaining : Nat} (count : taken + remaining = repetition.limit)
    (some_glue : repetition.glue ≠ []) (filled : ∀ glue ∈ repetition.glue, glue ≠ [])
    (gives : (repetition.extensions child remaining branch).Gives items) :
    ∃ findings : Findings (Item H),
      findings.Follows (repetition.GoesFrom child (taken + 1)) branch ∧ findings.Lists items := by
  induction remaining generalizing taken branch items with
  | zero =>
      rw [Run.gives_empty (Action.gives_pure gives)]
      exact closed_search fun allowed => absurd allowed.within (by omega)
  | succ remaining ih =>
      cases remaining with
      | zero =>
          rw [Run.gives_empty (Action.gives_pure gives)]
          exact closed_search fun allowed => absurd allowed.within (by omega)
      | succ remaining =>
          rw [extensions] at gives
          split at gives
          · rename_i refused
            rw [Run.gives_empty (Action.gives_pure gives)]
            refine closed_search fun allowed => ?_
            simp [allowed.unfinished, allowed.unsuggested] at refused
          · rename_i extendable
            rw [Bool.or_eq_true, not_or, Bool.not_eq_true, Bool.not_eq_true] at extendable
            have allowed : repetition.Open (taken + 1) branch :=
              ⟨by omega, extendable.1, extendable.2⟩
            cases wanted : branch.wantsPlaceholder with
            | true =>
                obtain ⟨text, placeholder⟩ := exists_placeholder some_glue
                have added : branch.add { content := text, kind := .placeholder } = .ok _ :=
                  Branch.add_behind (.inr rfl) (by simp) (Branch.input_of_wantsPlaceholder wanted)
                have ⟨_, ⟨world, _⟩, _⟩ := gives
                simp only [shownPlaceholder?, placeholder, wanted, Option.filter_some, if_true,
                  added] at gives
                rw [Run.gives_one (Action.gives_pure gives)]
                exact heldOpen_search world allowed wanted placeholder
            | false =>
                have unshown : repetition.shownPlaceholder? branch = none := by
                  simp [shownPlaceholder?, wanted]
                rw [unshown] at gives
                refine glues_search allowed wanted filled ?_ gives
                intro copy more extended
                exact ih (by omega) extended

theorem step_search {settings : Settings H} (checked : repetition.matcher.check settings = .ok ())
    (gives : (repetition.step settings branch).Gives items) :
    ∃ child, settings.children = [child] ∧ ∃ findings : Findings (Item H),
      findings.Follows (fun front => repetition.Goes child front.length) branch ∧
        findings.Lists items := by
  have filled := check_eq_ok checked
  obtain ⟨_, only, rest⟩ := Except.bind_eq_ok checked
  obtain ⟨child, single⟩ := List.length_eq_one_iff.mp (Settings.expectChildren_eq_ok only)
  have some_glue : repetition.glue ≠ [] := by
    intro empty
    rw [if_pos (by simp [empty])] at rest
    contradiction
  refine ⟨child, single, ?_⟩
  rw [step, single] at gives
  obtain ⟨run, begun, given⟩ := Action.gives_bind gives
  obtain ⟨heads, parts, found, followed, rfl⟩ :=
    Findings.followed_thenExtend (Action.gives_pure given) fun copy more extended =>
      extensions_search (Nat.zero_add _) some_glue filled extended
  have goes : ∀ all : Nat → List (Item H), all 0 = heads →
      (∀ alternative, all (alternative + 1) = []) → repetition.Goes child 0 branch all := by
    intro all same only
    refine .first ?_ only
    rw [same]
    exact ⟨run, begun, found⟩
  obtain ⟨findings, follows, lists⟩ := search_one followed goes
  refine ⟨findings, follows.imp fun front rest heads goes => ?_, lists⟩
  rwa [GoesFrom, Nat.zero_add] at goes

/-- No finding lies behind more occurrences than the limit allows. -/
theorem length_le_of_follows {findings : Findings (Item H)}
    (follows : findings.Follows (fun front => repetition.Goes child front.length) branch)
    (address : Address) (found : (findings.at? address).isSome) :
    address.length ≤ max repetition.limit 1 := by
  rcases List.eq_nil_or_concat address with rfl | ⟨front, step, rfl⟩
  · exact Nat.zero_le _
  · rw [List.concat_eq_append, Findings.at?_concat] at found
    rw [List.concat_eq_append, List.length_append, List.length_singleton]
    have some_found : findings front step.1 ≠ [] := by
      intro empty
      simp [empty] at found
    rcases follows.reached some_found with rfl | ⟨_, _, _, _, goes⟩
    · exact Nat.le_max_right _ _
    · generalize front.length = taken at goes
      generalize findings front = heads at goes some_found
      cases goes with
      | first => exact Nat.le_max_right _ _
      | closed => exact absurd rfl some_found
      | heldOpen allowed => exact Nat.le_trans allowed.within (Nat.le_max_left _ _)
      | glued allowed => exact Nat.le_trans allowed.within (Nat.le_max_left _ _)

end Repetition

namespace Kind

variable {shape : Repetition} {options : RuleOptions H} {children : List (Parser H)}
  {parser : Parser H} {branch : Branch H} {items : List (Item H)}

/-- A repetition lists the occurrences of its child behind an unfinished branch, one
behind the other up to its limit, with the glues that were begun and the places that are
held open. -/
theorem repetition_enumerates (enabled : options.enabled (.repetition shape) = true)
    (placeholder : options.placeholder = none) (requiresInput : options.requiresInput = false)
    (built : (Kind.repetition shape).build options children = .ok parser)
    (unfinished : branch.isFinished = false) (gives : (parser.start branch).Gives items) :
    ∃ child, children = [child] ∧ ∃ (findings : Findings (Item H)) (all : List (Item H)),
      findings.Follows (fun front => shape.Goes child front.length)
        (branch.pushStack "repeat") ∧
      (∀ address, (findings.at? address).isSome → address.length ≤ max shape.limit 1) ∧
      findings.Lists all ∧ items = all.map (·.map Branch.popStack) := by
  obtain ⟨prepared, checked, completed, rfl⟩ := Matcher.build_eq_ok built
  cases completed
  rw [enabled] at gives
  obtain ⟨inner, inside, rfl⟩ :=
    Parser.gives_around unfinished placeholder requiresInput gives
  obtain ⟨child, single, findings, follows, lists⟩ := Repetition.step_search checked inside
  exact ⟨child, single, findings, inner, follows, Repetition.length_le_of_follows follows,
    lists, rfl⟩

def commas : Repetition := { glue := [[',']], limit := 3 }

/-- A branch of which nothing is read yet. -/
def unread : Branch Host.quiet where
  given := ['a', ',', 'A']
  holder := .plain ()
  data := ()

theorem repetition_enumerates_commas : ∃ children parser items,
    Rule.buildAll [.node (.literal { text := ['a'] }) {} []] = .ok children ∧
    (Kind.repetition commas).build {} children = .ok parser ∧ unread.isFinished = false ∧
    (parser.start unread).Gives items ∧
    (items.map fun item => item.toOption.map Branch.spelled) =
      [some ['a'], some ['a', ',', 'a'], some ['a', ',', 'a', ',']] ∧
    ∃ child, children = [child] ∧
      ∃ (findings : Findings (Item Host.quiet)) (all : List (Item Host.quiet)),
        findings.Follows (fun front => commas.Goes child front.length)
          (unread.pushStack "repeat") ∧
        (∀ address, (findings.at? address).isSome → address.length ≤ max commas.limit 1) ∧
        findings.Lists all ∧ items = all.map (·.map Branch.popStack) := by
  obtain ⟨children, builtAll⟩ : ∃ children,
      Rule.buildAll [.node (.literal { text := ['a'] }) {} []] = .ok children := ⟨_, rfl⟩
  obtain ⟨parser, built⟩ : ∃ parser,
      (Kind.repetition commas).build {} children = .ok parser := by
    cases builtAll
    exact ⟨_, rfl⟩
  have found : (((parser.start unread ()).result.toList ()).result.map fun item =>
      item.toOption.map Branch.spelled) =
        [some ['a'], some ['a', ',', 'a'], some ['a', ',', 'a', ',']] := by
    cases builtAll
    cases built
    decide +kernel
  have gives := Action.gives_toList (parser.start unread) () ()
  exact ⟨children, parser, _, builtAll, built, rfl, gives, found,
    repetition_enumerates rfl rfl rfl built rfl gives⟩

end Kind

end Typeahead
