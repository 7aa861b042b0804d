import Mathlib.Data.List.Flatten
import Mathlib.Data.List.Nodup
import Typeahead.Proofs.Run.Gives

namespace Typeahead

/-! Depth-first searches.

A search tries alternatives, each of which finds some items, and goes on behind the
items that it found.  A finding has an address: the alternatives that were tried on
the way to it, each with the place of the item that was taken from what it found.
What is found where is one thing; that a list holds all of it, once and in depth-first
order, is another. -/

/-- The alternatives tried one behind the other, each with the place of the item taken
from what it found. -/
abbrev Address := List (Nat × Nat)

namespace Address

/-- Earlier alternatives and places come first, and an address comes before those
behind it. -/
def Before : Address → Address → Prop := List.Lex (Prod.Lex (· < ·) (· < ·))

end Address

/-- What every alternative finds behind every address. -/
abbrev Findings (α : Type) := Address → Nat → List α

namespace Findings

variable {α β : Type} {findings : Findings α}

def nothing : Findings α := fun _ _ => []

def at? (findings : Findings α) (address : Address) : Option α :=
  address.getLast?.bind fun (alternative, place) =>
    (findings address.dropLast alternative)[place]?

/-- What is found behind one step. -/
def behind (findings : Findings α) (step : Nat × Nat) : Findings α :=
  fun rest => findings (step :: rest)

/-- The items are all the findings, each once and in depth-first order. -/
def Lists (findings : Findings α) (items : List α) : Prop :=
  ∃ addresses : List Address, addresses.Pairwise Address.Before ∧
    (∀ address, address ∈ addresses ↔ (findings.at? address).isSome) ∧
    addresses.map findings.at? = items.map some

@[simp] theorem at?_nil : findings.at? [] = none := rfl

@[simp] theorem at?_one (step : Nat × Nat) :
    findings.at? [step] = (findings [] step.1)[step.2]? := rfl

theorem at?_concat (front : Address) (step : Nat × Nat) :
    findings.at? (front ++ [step]) = (findings front step.1)[step.2]? := by
  simp [at?]

@[simp] theorem at?_behind (step next : Nat × Nat) (rest : Address) :
    findings.at? (step :: next :: rest) = (findings.behind step).at? (next :: rest) := rfl

@[simp] theorem nothing_at? (address : Address) : (nothing : Findings α).at? address = none := by
  cases last : address.getLast? with
  | none => simp [at?, last]
  | some step => simp [at?, last, nothing]

theorem Lists.at?_of_mem {items : List α} {item : α} (lists : findings.Lists items)
    (member : item ∈ items) : ∃ address, findings.at? address = some item := by
  obtain ⟨addresses, _, _, same⟩ := lists
  have found := List.mem_map_of_mem (f := some) member
  rw [← same] at found
  obtain ⟨address, _, here⟩ := List.mem_map.mp found
  exact ⟨address, here⟩

theorem lists_nothing : (nothing : Findings α).Lists [] :=
  ⟨[], .nil, by simp, rfl⟩

/-- The items are the findings whose addresses begin with some of the steps, each once
and in depth-first order. -/
def ListsFrom (findings : Findings α) (steps : List (Nat × Nat)) (items : List α) : Prop :=
  ∃ addresses : List Address, addresses.Pairwise Address.Before ∧
    (∀ address, address ∈ addresses ↔
      ∃ step rest, step ∈ steps ∧ address = step :: rest ∧ (findings.at? address).isSome) ∧
    addresses.map findings.at? = items.map some

theorem listsFrom_one {step : Nat × Nat} {head : α} {more : List α}
    (found : findings.at? [step] = some head) (lists : (findings.behind step).Lists more) :
    findings.ListsFrom [step] (head :: more) := by
  obtain ⟨inside, sorted, all, same⟩ := lists
  have at?_cons : ∀ rest ∈ inside, findings.at? (step :: rest) =
      (findings.behind step).at? rest := by
    intro rest member
    cases rest with
    | nil => simp [all] at member
    | cons next rest => exact at?_behind step next rest
  refine ⟨[step] :: inside.map (step :: ·), ?_, fun address => ⟨?_, ?_⟩, ?_⟩
  · rw [List.pairwise_cons, List.pairwise_map]
    refine ⟨fun address member => ?_, sorted.imp .cons⟩
    obtain ⟨rest, among, rfl⟩ := List.mem_map.mp member
    cases rest with
    | nil => simp [all] at among
    | cons next rest => exact .cons .nil
  · intro member
    rcases List.mem_cons.mp member with rfl | below
    · exact ⟨step, [], List.mem_singleton_self step, rfl, by rw [found]; rfl⟩
    · obtain ⟨rest, among, rfl⟩ := List.mem_map.mp below
      refine ⟨step, rest, List.mem_singleton_self step, rfl, ?_⟩
      rw [at?_cons rest among]
      exact (all rest).mp among
  · rintro ⟨first, rest, only, rfl, present⟩
    rw [List.mem_singleton.mp only] at present ⊢
    cases rest with
    | nil => exact List.mem_cons_self
    | cons next rest =>
        rw [at?_behind] at present
        exact List.mem_cons_of_mem _ (List.mem_map.mpr ⟨_, (all _).mpr present, rfl⟩)
  · rw [List.map_cons, List.map_map, found, List.map_cons, ← same]
    exact congrArg _ (List.map_congr_left at?_cons)

theorem ListsFrom.append {steps steps' : List (Nat × Nat)} {items items' : List α}
    (first : findings.ListsFrom steps items) (second : findings.ListsFrom steps' items')
    (ascending : ∀ step ∈ steps, ∀ later ∈ steps', Prod.Lex (· < ·) (· < ·) step later) :
    findings.ListsFrom (steps ++ steps') (items ++ items') := by
  obtain ⟨front, sorted, all, same⟩ := first
  obtain ⟨back, sorted', all', same'⟩ := second
  refine ⟨front ++ back, List.pairwise_append.mpr ⟨sorted, sorted', ?_⟩, fun address => ?_, ?_⟩
  · intro address member later member'
    obtain ⟨step, _, among, rfl, _⟩ := (all address).mp member
    obtain ⟨next, _, among', rfl, _⟩ := (all' later).mp member'
    exact .rel (ascending step among next among')
  · simp only [List.mem_append, all, all', or_and_right, exists_or]
  · rw [List.map_append, List.map_append, same, same']

theorem ListsFrom.flatten {steps : β → List (Nat × Nat)} {parts : List β}
    {groups : List (List α)}
    (each : List.Forall₂ (fun part group => findings.ListsFrom (steps part) group) parts groups)
    (ascending : (parts.flatMap steps).Pairwise (Prod.Lex (· < ·) (· < ·))) :
    findings.ListsFrom (parts.flatMap steps) groups.flatten := by
  induction each with
  | nil => exact ⟨[], .nil, by simp, rfl⟩
  | cons here _ ih =>
      rw [List.flatMap_cons, List.pairwise_append] at ascending
      rw [List.flatMap_cons, List.flatten_cons]
      exact here.append (ih ascending.2.1) ascending.2.2

/-- All findings begin with some of the steps. -/
theorem ListsFrom.lists {steps : List (Nat × Nat)} {items : List α}
    (from_steps : findings.ListsFrom steps items)
    (elsewhere : ∀ step ∉ steps, findings.at? [step] = none ∧ findings.behind step = nothing) :
    findings.Lists items := by
  obtain ⟨addresses, sorted, all, same⟩ := from_steps
  refine ⟨addresses, sorted, fun address => (all address).trans ⟨?_, fun present => ?_⟩, same⟩
  · rintro ⟨_, _, _, _, present⟩
    exact present
  · cases address with
    | nil => simp at present
    | cons step rest =>
        refine ⟨step, rest, ?_, rfl, present⟩
        by_contra missing
        obtain ⟨missed, empty⟩ := elsewhere step missing
        cases rest with
        | nil => simp [missed] at present
        | cons next rest => simp [empty] at present

/-! ### Searches from what each alternative finds -/

/-- The steps to what an alternative finds at once. -/
def stepsTo (alternative count : Nat) : List (Nat × Nat) :=
  (List.range count).flatMap fun place => [(alternative, place)]

theorem mem_stepsTo {alternative count : Nat} {step : Nat × Nat} :
    step ∈ stepsTo alternative count ↔ step.1 = alternative ∧ step.2 < count := by
  obtain ⟨first, second⟩ := step
  simp [stepsTo, and_comm]

theorem stepsTo_ascending (alternative count : Nat) :
    (stepsTo alternative count).Pairwise (Prod.Lex (· < ·) (· < ·)) := by
  rw [stepsTo, ← List.map_eq_flatMap, List.pairwise_map]
  exact List.pairwise_lt_range.imp fun less => .right _ less

theorem allSteps_ascending {members : List β} {label count : β → Nat}
    (ascending : members.Pairwise fun one other => label one < label other) :
    (members.flatMap fun member => stepsTo (label member) (count member)).Pairwise
      (Prod.Lex (· < ·) (· < ·)) := by
  rw [List.pairwise_flatMap]
  refine ⟨fun member _ => stepsTo_ascending _ _, ascending.imp ?_⟩
  intro member other less step among later among'
  rw [Prod.lex_def, (mem_stepsTo.mp among).1, (mem_stepsTo.mp among').1]
  exact .inl less

/-- An item and then all that is found behind it. -/
def Followed (Behind : α → Findings α → Prop) (head : α) (items : List α) : Prop :=
  ∃ more found, Behind head found ∧ found.Lists more ∧ items = head :: more

/-- What one alternative found, what was found behind each item of it, and both as
they are listed. -/
structure Trial (α : Type) where
  heads : List α := []
  behind : Nat → Findings α := fun _ => nothing
  groups : List (List α) := []

structure Trial.Sound (Behind : α → Findings α → Prop) (trial : Trial α) : Prop where
  behind : ∀ place head, trial.heads[place]? = some head → Behind head (trial.behind place)
  elsewhere : ∀ place, trial.heads[place]? = none → trial.behind place = nothing
  groups : List.Forall₂ (fun place group => ∃ head more, trial.heads[place]? = some head ∧
    (trial.behind place).Lists more ∧ group = head :: more)
    (List.range trial.heads.length) trial.groups

/-- The search whose alternatives found what the trials say. -/
def ofTrials (trial : Nat → Trial α) : Findings α
  | [], alternative => (trial alternative).heads
  | step :: rest, alternative => (trial step.1).behind step.2 rest alternative

theorem exists_trial {Behind : α → Findings α → Prop} {heads : List α} {groups : List (List α)}
    (followed : List.Forall₂ (Followed Behind) heads groups) :
    ∃ behind, Trial.Sound Behind ⟨heads, behind, groups⟩ := by
  induction followed with
  | nil => exact ⟨fun _ => nothing, by simp, fun _ _ => rfl, .nil⟩
  | @cons head group heads groups here _ ih =>
      obtain ⟨more, found, goes_on, lists, rfl⟩ := here
      obtain ⟨behind, sound⟩ := ih
      refine ⟨fun place => Nat.casesOn place found behind, ?_, ?_, ?_⟩
      · intro place item present
        cases place with
        | zero =>
            cases present
            exact goes_on
        | succ place => exact sound.behind place item present
      · intro place missing
        cases place with
        | zero => simp at missing
        | succ place => exact sound.elsewhere place missing
      · rw [List.length_cons, List.range_succ_eq_map]
        exact .cons ⟨head, more, rfl, lists, rfl⟩ (List.forall₂_map_left_iff.mpr sound.groups)

/-- A choice for each member of a list is a choice for each label. -/
theorem exists_labelled {γ : Type} {R : β → γ → Prop} {members : List β} {choices : List γ}
    {label : β → Nat} (fallback : γ) (related : List.Forall₂ R members choices)
    (ascending : members.Pairwise fun one other => label one < label other) :
    ∃ choice : Nat → γ, choices = members.map (fun member => choice (label member)) ∧
      (∀ member ∈ members, R member (choice (label member))) ∧
      ∀ alternative, (∀ member ∈ members, label member ≠ alternative) →
        choice alternative = fallback := by
  induction related with
  | nil => exact ⟨fun _ => fallback, rfl, by simp, fun _ _ => rfl⟩
  | @cons member chosen members choices here _ ih =>
      obtain ⟨first, others⟩ := List.pairwise_cons.mp ascending
      obtain ⟨choice, same, all, elsewhere⟩ := ih others
      have later : ∀ other ∈ members, label other ≠ label member :=
        fun other among => Nat.ne_of_gt (first other among)
      refine ⟨Function.update choice (label member) chosen, ?_, ?_, ?_⟩
      · rw [List.map_cons, Function.update_self, same]
        exact congrArg _ (List.map_congr_left fun other among =>
          (Function.update_of_ne (later other among) _ _).symm)
      · intro other among
        rcases List.mem_cons.mp among with rfl | behind
        · rw [Function.update_self]
          exact here
        · rw [Function.update_of_ne (later other behind)]
          exact all other behind
      · intro alternative unused
        rw [Function.update_of_ne (unused member List.mem_cons_self).symm]
        exact elsewhere alternative fun other among =>
          unused other (List.mem_cons_of_mem member among)

theorem zipIdx_ascending (members : List β) :
    members.zipIdx.Pairwise fun one other => one.2 < other.2 := by
  refine List.pairwise_map.mp ?_
  rw [List.zipIdx_map_snd]
  exact List.pairwise_lt_range' 1

/-- A search by what the alternatives of its root find, each of them labelled, and by
what is found behind these items. -/
structure Unfolds (findings : Findings α) (members : List β) (label : β → Nat)
    (Root : β → List α → Prop) (Behind : β → α → Findings α → Prop) : Prop where
  root : ∀ member ∈ members, Root member (findings [] (label member))
  behind : ∀ member ∈ members, ∀ place head,
    findings.at? [(label member, place)] = some head →
      Behind member head (findings.behind (label member, place))
  only : ∀ alternative, findings [] alternative ≠ [] →
    ∃ member ∈ members, label member = alternative
  elsewhere : ∀ step, findings.at? [step] = none → findings.behind step = nothing

section

variable {members : List β} {label : β → Nat} {Root : β → List α → Prop}
  {Behind : β → α → Findings α → Prop} {trial : Nat → Trial α}

theorem unfolds_ofTrials
    (each : ∀ member ∈ members, Root member (trial (label member)).heads ∧
      (trial (label member)).Sound (Behind member))
    (unused : ∀ alternative, (∀ member ∈ members, label member ≠ alternative) →
      trial alternative = {}) :
    (ofTrials trial).Unfolds members label Root Behind where
  root member among := (each member among).1
  behind member among := (each member among).2.behind
  only alternative found := by
    by_contra missing
    push Not at missing
    exact found (congrArg Trial.heads (unused alternative missing))
  elsewhere step missing := by
    change (trial step.1).heads[step.2]? = none at missing
    change (trial step.1).behind step.2 = nothing
    by_cases tried : ∃ member ∈ members, label member = step.1
    · obtain ⟨member, among, same⟩ := tried
      rw [← same] at missing ⊢
      exact (each member among).2.elsewhere step.2 missing
    · push Not at tried
      rw [unused step.1 tried]

theorem Unfolds.lists_ofTrials (unfolds : (ofTrials trial).Unfolds members label Root Behind)
    (ascending : members.Pairwise fun one other => label one < label other)
    (sound : ∀ member ∈ members, (trial (label member)).Sound (Behind member)) :
    (ofTrials trial).Lists
      (members.map fun member => (trial (label member)).groups.flatten).flatten := by
  let steps := fun member => stepsTo (label member) (trial (label member)).heads.length
  have each : ∀ member ∈ members, (ofTrials trial).ListsFrom (steps member)
      (trial (label member)).groups.flatten := by
    intro member among
    refine ListsFrom.flatten ((sound member among).groups.imp ?_) (stepsTo_ascending _ _)
    rintro place group ⟨head, more, found, lists, rfl⟩
    exact listsFrom_one found lists
  have listed := ListsFrom.flatten
    (List.forall₂_map_right_iff.mpr (List.forall₂_same.mpr each)) (allSteps_ascending ascending)
  refine listed.lists fun step missing => ?_
  have missed : (ofTrials trial).at? [step] = none := by
    by_contra found
    obtain ⟨member, among, same⟩ := unfolds.only step.1 (by
      intro empty
      simp [empty] at found)
    refine missing (List.mem_flatMap.mpr ⟨member, among, mem_stepsTo.mpr ⟨same.symm, ?_⟩⟩)
    rw [at?_one, List.getElem?_eq_none_iff, Nat.not_le] at found
    rw [same]
    exact found
  exact ⟨missed, unfolds.elsewhere step missed⟩

theorem exists_lists {groups : List (List α)}
    (ascending : members.Pairwise fun one other => label one < label other)
    (grouped : List.Forall₂ (fun member group => ∃ heads parts, Root member heads ∧
      List.Forall₂ (Followed (Behind member)) heads parts ∧ group = parts.flatten)
      members groups) :
    ∃ findings : Findings α, findings.Unfolds members label Root Behind ∧
      findings.Lists groups.flatten := by
  have trials : ∃ trials : List (Trial α), groups = trials.map (·.groups.flatten) ∧
      List.Forall₂ (fun member trial => Root member trial.heads ∧ trial.Sound (Behind member))
        members trials := by
    induction grouped with
    | nil => exact ⟨[], rfl, .nil⟩
    | cons here _ ih =>
        obtain ⟨heads, parts, root, followed, rfl⟩ := here
        obtain ⟨behind, sound⟩ := exists_trial followed
        obtain ⟨trials, rfl, all⟩ := ih (List.pairwise_cons.mp ascending).2
        exact ⟨⟨heads, behind, parts⟩ :: trials, rfl, .cons ⟨root, sound⟩ all⟩
  obtain ⟨trials, rfl, sound⟩ := trials
  obtain ⟨trial, rfl, each, unused⟩ := exists_labelled {} sound ascending
  have unfolds := unfolds_ofTrials each unused
  refine ⟨ofTrials trial, unfolds, ?_⟩
  rw [List.map_map]
  exact unfolds.lists_ofTrials ascending fun member among => (each member among).2

end

variable {H : Host}

/-! ### Searches that go on from branches -/

/-- A search by one rule: what the alternatives find behind an address, on a copy of the
branch that was found there.  Nothing is found behind errors. -/
structure Follows (Rule : Address → Branch H → (Nat → List (Item H)) → Prop)
    (branch : Branch H) (findings : Findings (Item H)) : Prop where
  here : Rule [] branch (findings [])
  further : ∀ front before, findings.at? front = some (.ok before) →
    ∃ rest, before.fork.Results rest ∧ Rule front rest (findings front)
  stops : ∀ front, front ≠ [] → (∀ before, findings.at? front ≠ some (.ok before)) →
    findings front = fun _ => []

variable {Rule Rule' : Address → Branch H → (Nat → List (Item H)) → Prop} {branch : Branch H}

theorem Follows.imp {findings : Findings (Item H)}
    (follows : findings.Follows Rule branch)
    (weaker : ∀ front rest heads, Rule front rest heads → Rule' front rest heads) :
    findings.Follows Rule' branch where
  here := weaker _ _ _ follows.here
  further front before found := by
    obtain ⟨rest, copied, rule⟩ := follows.further front before found
    exact ⟨rest, copied, weaker _ _ _ rule⟩
  stops := follows.stops

theorem Follows.reached {findings : Findings (Item H)} (follows : findings.Follows Rule branch)
    {front : Address} {alternative : Nat} (found : findings front alternative ≠ []) :
    front = [] ∨ ∃ before rest, findings.at? front = some (.ok before) ∧
      before.fork.Results rest ∧ Rule front rest (findings front) := by
  by_cases start : front = []
  · exact .inl start
  · by_cases left : ∃ before, findings.at? front = some (.ok before)
    · obtain ⟨before, there⟩ := left
      obtain ⟨rest, copied, rule⟩ := follows.further front before there
      exact .inr ⟨before, rest, there, copied, rule⟩
    · push Not at left
      exact absurd (congrFun (follows.stops front start left) alternative) found

theorem nothing_follows (here : Rule [] branch fun _ => []) :
    (nothing : Findings (Item H)).Follows Rule branch where
  here := here
  further := by simp
  stops := fun _ _ _ => rfl

/-- Behind a branch comes what a search finds on a copy of it, behind an error nothing. -/
inductive Further (Search : Branch H → Findings (Item H) → Prop) :
    Item H → Findings (Item H) → Prop
  | branch {branch copy : Branch H} {found : Findings (Item H)}
      (copied : branch.fork.Results copy) (searched : Search copy found) :
      Further Search (.ok branch) found
  | error {cause : Error} {found : Findings (Item H)} (stops : found = nothing) :
      Further Search (.error cause) found

/-- A search follows a rule when it does so at its root and behind every step. -/
theorem Unfolds.follows {members : List β} {label : β → Nat} {Root : β → List (Item H) → Prop}
    {Inner : β → Address → Branch H → (Nat → List (Item H)) → Prop}
    {findings : Findings (Item H)}
    (unfolds : findings.Unfolds members label Root
      fun member => Further fun rest found => found.Follows (Inner member) rest)
    (here : Rule [] branch (findings []))
    (deeper : ∀ member ∈ members, ∀ place front rest heads, Inner member front rest heads →
      Rule ((label member, place) :: front) rest heads) :
    findings.Follows Rule branch := by
  have behind : ∀ step item, findings.at? [step] = some item →
      Further (fun rest found => found.Follows (fun front => Rule (step :: front)) rest) item
        (findings.behind step) := by
    intro step item found
    obtain ⟨member, among, same⟩ := unfolds.only step.1 (by
      intro empty
      simp [empty] at found)
    obtain ⟨alternative, place⟩ := step
    cases same
    cases unfolds.behind member among place item found with
    | branch copied follows => exact .branch copied (follows.imp (deeper member among place))
    | error stops => exact .error stops
  constructor
  case here => exact here
  case further =>
    intro front before found
    match front with
    | [] => simp at found
    | [step] =>
        cases behind step _ found with
        | branch copied follows => exact ⟨_, copied, follows.here⟩
    | step :: next :: front =>
        rw [at?_behind] at found
        cases there : findings.at? [step] with
        | none => simp [unfolds.elsewhere step there] at found
        | some item =>
            cases behind step item there with
            | branch _ follows => exact follows.further (next :: front) before found
            | error stops => simp [stops] at found
  case stops =>
    intro front nonempty missing
    match front with
    | [] => contradiction
    | step :: front =>
        change findings.behind step front = _
        cases there : findings.at? [step] with
        | none => rw [unfolds.elsewhere step there]; rfl
        | some item =>
            cases behind step item there with
            | error stops => rw [stops]; rfl
            | branch _ follows =>
                cases front with
                | nil => exact absurd there (missing _)
                | cons next front => exact follows.stops _ (List.cons_ne_nil _ _) missing

theorem followed_thenExtend {Search : Branch H → Findings (Item H) → Prop}
    {extend : Branch H → Action H (Run H (Item H))} {run : Run H (Item H)}
    {items : List (Item H)} (gives : (run.thenExtend extend).Gives items)
    (searched : ∀ copy more, (extend copy).Gives more →
      ∃ found, Search copy found ∧ found.Lists more) :
    ∃ heads parts, run.Gives heads ∧ List.Forall₂ (Followed (Further Search)) heads parts ∧
      items = parts.flatten := by
  obtain ⟨heads, parts, given, extended, rfl⟩ := Run.gives_thenExtend gives
  refine ⟨heads, parts, given, extended.imp ?_, rfl⟩
  intro head part ofHead
  cases ofHead with
  | branch copied behind =>
      obtain ⟨found, search, lists⟩ := searched _ _ behind
      exact ⟨_, found, .branch copied search, lists, rfl⟩
  | error => exact ⟨[], nothing, .error rfl, lists_nothing, rfl⟩

end Findings

end Typeahead
