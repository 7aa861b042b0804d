import Typeahead.Matcher.Pick
import Typeahead.Proofs.Extending.Rule
import Typeahead.Proofs.Run.Search

namespace Typeahead

/-! What a pick finds.

The alternatives of a pick are its children.  A chain takes distinct children one
behind the other, and each of them runs on a copy of a branch that the chain before it
left. -/

variable {H : Host}

namespace Pick

/-! ### The members of a list with the others -/

theorem selections_map {α β : Type} (f : α → β) (members : List α) :
    selections (members.map f) =
      (selections members).map fun (chosen, others) => (f chosen, others.map f) := by
  induction members with
  | nil => rfl
  | cons member members ih =>
      rw [List.map_cons, selections, selections, ih]
      simp

theorem selections_chosen {α : Type} (members : List α) :
    (selections members).map Prod.fst = members := by
  induction members with
  | nil => rfl
  | cons member members ih =>
      rw [selections, List.map_cons, List.map_map]
      exact congrArg (member :: ·) ih

theorem split_of_mem_selections {α : Type} {members others : List α} {chosen : α}
    (found : (chosen, others) ∈ selections members) :
    ∃ front back, members = front ++ chosen :: back ∧ others = front ++ back := by
  induction members generalizing others with
  | nil => simp [selections] at found
  | cons member members ih =>
      rcases List.mem_cons.mp found with first | later
      · cases first
        exact ⟨[], members, rfl, rfl⟩
      · obtain ⟨⟨chosen', unused⟩, among, same⟩ := List.mem_map.mp later
        cases same
        obtain ⟨front, back, rfl, rfl⟩ := ih among
        exact ⟨member :: front, back, rfl, rfl⟩

/-! ### Chains of labelled children -/

/-- Behind every chain each child runs, on a copy of its own, that the chain did not use.
The steps of an address are named by the labels of the children. -/
structure Tries (children : List (Parser H × Nat)) (front : Address) (branch : Branch H)
    (heads : Nat → List (Item H)) : Prop where
  unused : ∀ child label, (child, label) ∈ children → label ∉ front.map Prod.fst →
    ∃ copy, branch.fork.Results copy ∧ (child.start copy).Gives (heads label)
  only : ∀ label, heads label ≠ [] →
    (∃ child, (child, label) ∈ children) ∧ label ∉ front.map Prod.fst

/-- The labels of the children grow. -/
def Ascending (children : List (Parser H × Nat)) : Prop :=
  children.Pairwise fun one other => one.2 < other.2

variable {children unused others : List (Parser H × Nat)} {chosen : Parser H × Nat}
  {branch : Branch H} {items : List (Item H)} {findings : Findings (Item H)}

theorem selections_ascending (ascending : Ascending unused) :
    (selections unused).Pairwise fun one other => one.1.2 < other.1.2 := by
  rw [Ascending, ← selections_chosen unused, List.pairwise_map] at ascending
  exact ascending

theorem others_eq (ascending : Ascending unused)
    (selected : (chosen, others) ∈ selections unused) :
    others = unused.filter fun child => child.2 ≠ chosen.2 := by
  obtain ⟨front, back, rfl, rfl⟩ := split_of_mem_selections selected
  obtain ⟨_, ascending', before⟩ := List.pairwise_append.mp ascending
  obtain ⟨behind, _⟩ := List.pairwise_cons.mp ascending'
  have inFront : ∀ child ∈ front, decide (child.2 ≠ chosen.2) = true := fun child member =>
    decide_eq_true (Nat.ne_of_lt (before child member chosen List.mem_cons_self))
  have inBack : ∀ child ∈ back, decide (child.2 ≠ chosen.2) = true := fun child member =>
    decide_eq_true (Nat.ne_of_gt (behind child member))
  rw [List.filter_append, List.filter_cons_of_neg (by simp), List.filter_eq_self.mpr inFront,
    List.filter_eq_self.mpr inBack]

theorem others_ascending (ascending : Ascending unused)
    (selected : (chosen, others) ∈ selections unused) : Ascending others := by
  rw [others_eq ascending selected]
  exact ascending.filter _

theorem length_others (selected : (chosen, others) ∈ selections unused) :
    others.length + 1 = unused.length := by
  obtain ⟨front, back, rfl, rfl⟩ := split_of_mem_selections selected
  simp only [List.length_append, List.length_cons]
  omega

/-- Children that are not used behind a child are the others. -/
theorem Tries.deeper {front : Address} {place : Nat} {heads : Nat → List (Item H)}
    (ascending : Ascending unused) (selected : (chosen, others) ∈ selections unused)
    (tries : Tries others front branch heads) :
    Tries unused ((chosen.2, place) :: front) branch heads := by
  rw [others_eq ascending selected] at tries
  constructor
  case unused =>
    intro child label member fresh
    rw [List.map_cons, List.mem_cons, not_or] at fresh
    exact tries.unused child label
      (List.mem_filter.mpr ⟨member, decide_eq_true fresh.1⟩) fresh.2
  case only =>
    intro label found
    obtain ⟨⟨child, among⟩, fresh⟩ := tries.only label found
    obtain ⟨member, different⟩ := List.mem_filter.mp among
    refine ⟨⟨child, member⟩, ?_⟩
    rw [List.map_cons, List.mem_cons, not_or]
    exact ⟨of_decide_eq_true different, fresh⟩

/-- The depth allows for all children. -/
theorem chains_search {depth : Nat} (ascending : Ascending unused)
    (deep : unused.length ≤ depth)
    (gives : (chains depth (unused.map Prod.fst) branch).Gives items) :
    ∃ findings : Findings (Item H), findings.Follows (Tries unused) branch ∧
      findings.Lists items := by
  induction depth generalizing unused branch items with
  | zero =>
      rw [List.length_eq_zero_iff.mp (Nat.le_zero.mp deep), Run.gives_empty gives]
      exact ⟨.nothing, Findings.nothing_follows ⟨by simp, by simp⟩, Findings.lists_nothing⟩
  | succ depth ih =>
      obtain ⟨groups, grouped, rfl⟩ := Run.gives_concatMap gives
      rw [selections_map, List.forall₂_map_left_iff] at grouped
      have searched : List.Forall₂ (fun selected group => ∃ heads parts,
          (∃ copy, branch.fork.Results copy ∧ (selected.1.1.start copy).Gives heads) ∧
          List.Forall₂ (Findings.Followed (Findings.Further fun rest found =>
            found.Follows (Tries selected.2) rest)) heads parts ∧
          group = parts.flatten) (selections unused) groups := by
        refine ((List.forall₂_and_left _ _).mpr ⟨fun _ found => found, grouped⟩).imp ?_
        rintro ⟨chosen, others⟩ group ⟨selected, started⟩
        obtain ⟨copy, copied, continued⟩ := Action.gives_bind started
        obtain ⟨run, begun, chained⟩ := Action.gives_bind continued
        have fewer := length_others selected
        obtain ⟨heads, parts, given, followed, rfl⟩ :=
          Findings.followed_thenExtend (Action.gives_pure chained) fun rest more extended =>
            ih (others_ascending ascending selected) (by omega) (Action.gives_pure extended)
        exact ⟨heads, parts, ⟨copy, copied, run, begun, given⟩, followed, rfl⟩
      obtain ⟨findings, unfolds, lists⟩ :=
        Findings.exists_lists (selections_ascending ascending) searched
      refine ⟨findings, unfolds.follows ⟨?_, ?_⟩ ?_, lists⟩
      · intro child label member _
        rw [← selections_chosen unused] at member
        obtain ⟨selected, found, same⟩ := List.mem_map.mp member
        have root := unfolds.root selected found
        rwa [same] at root
      · intro label found
        obtain ⟨⟨chosen, others⟩, member, rfl⟩ := unfolds.only label found
        refine ⟨⟨chosen.1, ?_⟩, List.not_mem_nil⟩
        rw [← selections_chosen unused]
        exact List.mem_map.mpr ⟨_, member, rfl⟩
      · intro selected member place front rest heads
        exact Tries.deeper ascending member

/-- What the limit leaves. -/
def cut {α : Type} (pick : Pick) (items : List α) : List α :=
  match pick.limit with
  | none | some 0 => items
  | some limit => items.take limit

theorem step_search {pick : Pick} {settings : Settings H} {branch : Branch H}
    {items : List (Item H)} (gives : (pick.step settings branch).Gives items) :
    ∃ (findings : Findings (Item H)) (all : List (Item H)),
      findings.Follows (Tries settings.children.zipIdx) branch ∧ findings.Lists all ∧
        items = pick.cut all := by
  have cut : ∃ all, (chains settings.children.length settings.children branch).Gives all ∧
      items = pick.cut all := by
    have run := Action.gives_pure gives
    unfold Pick.cut
    match pick.limit, run with
    | none, run | some 0, run => exact ⟨items, run, rfl⟩
    | some (_ + 1), run => exact Run.gives_take run
  obtain ⟨all, chained, rfl⟩ := cut
  rw [← List.zipIdx_map_fst 0 settings.children, List.length_map] at chained
  obtain ⟨findings, chains, lists⟩ :=
    chains_search (Findings.zipIdx_ascending _) (Nat.le_refl _) chained
  exact ⟨findings, all, chains, lists, rfl⟩

end Pick

namespace Kind

variable {shape : Pick} {options : RuleOptions H} {children : List (Parser H)}
  {parser : Parser H} {branch : Branch H} {items : List (Item H)}

/-- A pick lists the chains of its children up to its limit, and passes a finished branch
on alone. -/
theorem pick_enumerates (enabled : options.enabled (.pick shape) = true)
    (placeholder : options.placeholder = none) (requiresInput : options.requiresInput = false)
    (built : (Kind.pick shape).build options children = .ok parser)
    (gives : (parser.start branch).Gives items) :
    (branch.isFinished = true → items = [.ok branch]) ∧
      (branch.isFinished = false → ∃ (findings : Findings (Item H)) (all : List (Item H)),
        findings.Follows (Pick.Tries children.zipIdx) (branch.pushStack "pick") ∧
          findings.Lists all ∧ items = (shape.cut all).map (·.map Branch.popStack)) := by
  obtain ⟨prepared, _, completed, rfl⟩ := Matcher.build_eq_ok built
  cases completed
  rw [enabled] at gives
  refine ⟨fun finished => Parser.gives_finished finished gives, fun unfinished => ?_⟩
  obtain ⟨inner, inside, rfl⟩ :=
    Parser.gives_around unfinished placeholder requiresInput gives
  obtain ⟨findings, all, chained, lists, rfl⟩ := Pick.step_search inside
  exact ⟨findings, all, chained, lists, rfl⟩

def letters : List (Rule Host.quiet) :=
  [.node (.literal { text := ['a'] }) {} [], .node (.literal { text := ['b'] }) {} []]

def untouched : Branch Host.quiet where
  given := []
  holder := .plain ()
  data := ()

theorem pick_enumerates_letters : ∃ children parser items,
    Rule.buildAll letters = .ok children ∧
    (Kind.pick { limit := some 3 }).build {} children = .ok parser ∧
    (parser.start untouched).Gives items ∧
    (items.map fun item => item.toOption.map Branch.spelled) =
      [some ['a'], some ['a', 'b'], some ['b']] ∧
    (untouched.isFinished = true → items = [.ok untouched]) ∧
      (untouched.isFinished = false →
        ∃ (findings : Findings (Item Host.quiet)) (all : List (Item Host.quiet)),
          findings.Follows (Pick.Tries children.zipIdx) (untouched.pushStack "pick") ∧
            findings.Lists all ∧
            items = (Pick.cut { limit := some 3 } all).map (·.map Branch.popStack)) := by
  obtain ⟨children, builtAll⟩ : ∃ children, Rule.buildAll letters = .ok children := ⟨_, rfl⟩
  obtain ⟨parser, built⟩ : ∃ parser,
      (Kind.pick { limit := some 3 }).build {} children = .ok parser := by
    cases builtAll
    exact ⟨_, rfl⟩
  have found : (((parser.start untouched ()).result.toList ()).result.map fun item =>
      item.toOption.map Branch.spelled) = [some ['a'], some ['a', 'b'], some ['b']] := by
    cases builtAll
    cases built
    decide +kernel
  have gives := Action.gives_toList (parser.start untouched) () ()
  exact ⟨children, parser, _, builtAll, built, gives, found,
    pick_enumerates rfl rfl rfl built gives⟩

/-- On a finished branch every child would be a chain of its own, but the branch is passed
on once. -/
theorem pick_passes_finished : ∃ children parser items,
    Rule.buildAll letters = .ok children ∧ (Kind.pick {}).build {} children = .ok parser ∧
    (parser.start untouched.finish).Gives items ∧
    ¬ ∃ (findings : Findings (Item Host.quiet)) (all : List (Item Host.quiet)),
      findings.Follows (Pick.Tries children.zipIdx) (untouched.finish.pushStack "pick") ∧
        findings.Lists all ∧ items = all.map (·.map Branch.popStack) := by
  obtain ⟨children, builtAll⟩ : ∃ children, Rule.buildAll letters = .ok children := ⟨_, rfl⟩
  obtain ⟨parser, built⟩ : ∃ parser, (Kind.pick {}).build {} children = .ok parser := by
    cases builtAll
    exact ⟨_, rfl⟩
  have gives := Action.gives_toList (parser.start untouched.finish) () ()
  have one : ((parser.start untouched.finish ()).result.toList ()).result.length = 1 := by
    cases builtAll
    cases built
    decide +kernel
  refine ⟨children, parser, _, builtAll, built, gives, ?_⟩
  rintro ⟨findings, all, follows, ⟨addresses, _, complete, same⟩, listed⟩
  have passed : ∀ label < children.length, [(label, 0)] ∈ addresses := by
    intro label bound
    obtain ⟨copy, copied, started⟩ := follows.here.unused children[label] label
      (List.mem_zipIdx_iff_getElem?.mpr (List.getElem?_eq_getElem bound)) List.not_mem_nil
    obtain ⟨data, rfl⟩ := Branch.fork_results copied
    obtain ⟨rule, _, builtChild⟩ := exists_of_mem_forall₂ (Rule.buildAll_eq_ok builtAll)
      (List.getElem_mem bound)
    rw [complete, Findings.at?_one, Rule.isFinished_passes builtChild rfl started]
    rfl
  have two : children.length = 2 := by rw [← (Rule.buildAll_eq_ok builtAll).length_eq]; rfl
  have single : addresses.length = 1 := by
    have lengths := congrArg List.length same
    have lengths' := congrArg List.length listed
    rw [List.length_map, List.length_map] at lengths
    rw [List.length_map, one] at lengths'
    rw [lengths, lengths']
  obtain ⟨only, rfl⟩ := List.length_eq_one_iff.mp single
  have first := List.mem_singleton.mp (passed 0 (by omega))
  have second := List.mem_singleton.mp (passed 1 (by omega))
  cases first.trans second.symm

end Kind

end Typeahead
