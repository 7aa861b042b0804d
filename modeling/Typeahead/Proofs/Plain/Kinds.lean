import Typeahead.Matcher.Choice
import Typeahead.Matcher.Word
import Typeahead.Proofs.Plain.Places
import Typeahead.Proofs.Rule
import Typeahead.Proofs.Run.Agreement
import Typeahead.Proofs.Run.Levels
import Typeahead.Proofs.Text.Leads

namespace Typeahead

/-! Every plain kind realizes the spelling that its children's spellings make. -/

variable {H : Host}

theorem Run.lands_thenExtend {run : Run H (Item H)} {extend : Branch H → Action H (Run H (Item H))}
    {items : List (Item H)} {places : List Place} {next : Spelling}
    (gives : (run.thenExtend extend).Gives items)
    (first : ∀ heads, run.Gives heads → List.Forall₂ Item.Lands heads places)
    (further : ∀ branch place more, branch.At place → (extend branch).Gives more →
      List.Forall₂ Item.Lands more (next.reach place)) :
    List.Forall₂ Item.Lands items (places.flatMap (Spelling.orStop next).reach) := by
  obtain ⟨heads, groups, given, grouped, rfl⟩ := gives_thenExtend gives
  have behind : List.Forall₂ (List.Forall₂ Item.Lands) groups
      (places.map (Spelling.orStop next).reach) := by
    refine List.forall₂_map_right_iff.mpr
      (forall₂_of_common grouped (first heads given) ?_)
    rintro _ group place extended ⟨branch, rfl, here⟩
    cases extended with
    | branch copied extended =>
        rw [Spelling.reach_orStop]
        exact .cons ⟨branch, rfl, here⟩ (further _ place _ (here.fork copied) extended)
  rw [List.flatMap_def]
  exact List.rel_flatten behind

namespace Fork

theorem realizes_step {settings : Settings H} {spellings : List Spelling}
    (realize : List.Forall₂ Parser.Realizes settings.children spellings) :
    (Fork.step settings).Realizes (.fork spellings) := by
  intro branch place items here gives
  obtain ⟨groups, grouped, rfl⟩ := Run.gives_concatMap (Action.gives_pure gives)
  rw [Spelling.reach_fork]
  refine List.rel_flatten (List.forall₂_map_right_iff.mpr (forall₂_of_common grouped realize ?_))
  intro child group spelling started realizes
  obtain ⟨copy, copied, continued⟩ := Action.gives_bind started
  exact realizes copy place group (here.fork copied) continued

end Fork

namespace Optional

theorem realizes_step {settings : Settings H} {child : Parser H} {spelling : Spelling}
    (children : settings.children = [child]) (realizes : child.Realizes spelling) :
    (Optional.step settings).Realizes spelling.orStop := by
  intro branch place items here gives
  obtain ⟨skipped, copied, rest⟩ := Action.gives_bind gives
  obtain ⟨more, later, rfl⟩ := Run.gives_cons (Action.gives_pure rest)
  have continued := Run.gives_defer later
  rw [children] at continued
  rw [Spelling.reach_orStop]
  exact .cons ⟨skipped, rfl, here.fork copied⟩ (realizes branch place more here continued)

end Optional

namespace Pick

variable {α β : Type} {R : α → β → Prop}

theorem selections_related {left : List α} {right : List β} (related : List.Forall₂ R left right) :
    List.Forall₂ (fun chosen chosen' => R chosen.1 chosen'.1 ∧ List.Forall₂ R chosen.2 chosen'.2)
      (selections left) (selections right) := by
  induction related with
  | nil => exact .nil
  | cons first others ih =>
      refine .cons ⟨first, others⟩ ?_
      rw [List.forall₂_map_left_iff, List.forall₂_map_right_iff]
      exact ih.imp fun _ _ inner => ⟨inner.1, .cons first inner.2⟩

theorem lands_chains {depth : Nat} {unused : List (Parser H)} {spellings : List Spelling}
    {branch : Branch H} {place : Place} {items : List (Item H)}
    (realize : List.Forall₂ Parser.Realizes unused spellings) (here : branch.At place)
    (gives : (chains depth unused branch).Gives items) :
    List.Forall₂ Item.Lands items ((Spelling.pick depth spellings).reach place) := by
  induction depth generalizing unused spellings branch place items with
  | zero =>
      rw [Run.gives_empty gives]
      exact .nil
  | succ depth ih =>
      obtain ⟨groups, grouped, rfl⟩ := Run.gives_concatMap gives
      rw [Spelling.pick, Spelling.reach_fork, List.map_map]
      refine List.rel_flatten (List.forall₂_map_right_iff.mpr
        (forall₂_of_common grouped (selections_related realize) ?_))
      rintro ⟨child, others⟩ group ⟨chosen, unchosen⟩ started ⟨realizes, rest⟩
      obtain ⟨copy, copied, continued⟩ := Action.gives_bind started
      obtain ⟨run, begun, chained⟩ := Action.gives_bind continued
      change List.Forall₂ Item.Lands group (Spelling.reach (chosen.andThen _) place)
      rw [Spelling.reach_andThen]
      refine Run.lands_thenExtend (Action.gives_pure chained) ?_ ?_
      · intro heads given
        exact realizes copy place heads (here.fork copied) ⟨run, begun, given⟩
      · intro next place more there extended
        exact ih rest there (Action.gives_pure extended)

theorem realizes_step {pick : Pick} {settings : Settings H} {spellings : List Spelling}
    (unlimited : pick.limit = none ∨ pick.limit = some 0)
    (realize : List.Forall₂ Parser.Realizes settings.children spellings) :
    (pick.step settings).Realizes (.pick spellings.length spellings) := by
  intro branch place items here gives
  have chained : (chains settings.children.length settings.children branch).Gives items := by
    rw [step] at gives
    rcases unlimited with limit | limit <;> rw [limit] at gives <;> exact Action.gives_pure gives
  rw [← realize.length_eq]
  exact lands_chains realize here chained

end Pick

namespace Sequence

theorem branches_of_lands {items : List (Item H)} {places : List Place}
    (lands : List.Forall₂ Item.Lands items places) :
    errorsOf items = [] ∧ List.Forall₂ Branch.At (branchesOf items) places := by
  induction lands with
  | nil => exact ⟨rfl, .nil⟩
  | cons landed _ ih =>
      obtain ⟨branch, rfl, here⟩ := landed
      exact ⟨ih.1, .cons here ih.2⟩

theorem lands_level {child : Parser H} {spelling : Spelling} {live : List (Branch H)}
    {places : List Place} {items : List (Item H)} (realizes : child.Realizes spelling)
    (here : List.Forall₂ Branch.At live places) (ran : (level child live).Results items) :
    List.Forall₂ Item.Lands items (places.flatMap spelling.reach) := by
  obtain ⟨groups, grouped, rfl⟩ := groups_of_level ran
  rw [List.flatMap_def]
  refine List.rel_flatten (List.forall₂_map_right_iff.mpr (forall₂_of_common grouped here ?_))
  intro branch group place gives stands
  exact realizes branch place group stands gives

theorem lands_levels {children : List (Parser H)} {spellings : List Spelling}
    {live survivors : List (Branch H)} {errors : List Error} {places : List Place}
    (realize : List.Forall₂ Parser.Realizes children spellings)
    (here : List.Forall₂ Branch.At live places)
    (ran : (levels children live).Results (errors, survivors)) :
    errors = [] ∧
      List.Forall₂ Branch.At survivors (places.flatMap (Spelling.sequence spellings).reach) := by
  -- what one level leaves is live for the next
  induction realize generalizing live errors survivors places with
  | nil =>
      cases Action.results_pure ran
      have stopped : places.flatMap (Spelling.sequence []).reach = places :=
        List.flatMap_singleton' places
      exact ⟨rfl, stopped.symm ▸ here⟩
  | @cons child spelling others spellings realizes _ ih =>
      obtain ⟨items, later, ofLevel, ofOthers, rfl⟩ := levels_cons ran
      obtain ⟨silent, continued⟩ := branches_of_lands (lands_level realizes here ofLevel)
      obtain ⟨none_later, stand⟩ := ih continued ofOthers
      refine ⟨by rw [silent, none_later]; rfl, ?_⟩
      have joined : (Spelling.sequence (spelling :: spellings)).reach =
          fun place => (spelling.reach place).flatMap (Spelling.sequence spellings).reach :=
        funext fun place => Spelling.reach_andThen
      rw [joined, ← List.flatMap_assoc]
      exact stand

theorem realizes_step {settings : Settings H} {spellings : List Spelling}
    (realize : List.Forall₂ Parser.Realizes settings.children spellings) :
    (Sequence.step settings).Realizes (.sequence spellings) := by
  intro branch place items here gives
  obtain ⟨errors, survivors, ran, rfl⟩ := gives_step gives
  obtain ⟨rfl, stand⟩ := lands_levels realize (.cons here .nil) ran
  rw [List.flatMap_singleton] at stand
  exact List.forall₂_map_left_iff.mpr (stand.imp fun branch place there => ⟨branch, rfl, there⟩)

end Sequence

namespace Word

variable {branch : Branch H} {place : Place}

theorem overlap?_space (input : Text) :
    Text.overlap? true input Text.space =
      if input.startsWithSpace then some (.full Text.space input.tail)
      else if input.isEmpty then some (.begun [] Text.space) else none := by
  cases input with
  | nil => rfl
  | cons first rest =>
      by_cases blank : first = ' '
      · simp [Text.overlap?, Text.splitLead?, Text.splitLead?_nil, Text.space,
          Text.startsWithSpace, blank]
      · have other : ¬ ' ' = first := fun same => blank same.symm
        simp [Text.overlap?, Text.splitLead?, Text.space, Text.startsWithSpace,
          Text.agree_sensitive, blank, other]

/-- What is answered is a branch at the place, or nothing where there is no place. -/
def Follows (answer : Option (Item H)) (place? : Option Place) : Prop :=
  (answer = none ∧ place? = none) ∨
    ∃ branch place, answer = some (.ok branch) ∧ place? = some place ∧ branch.At place

theorem follows_space (marker : Option Marker) (here : branch.At place) {kind : PartKind}
    (offers : kind = .suggestion ∨ kind = .whitespace) :
    Follows
      (if branch.input.startsWithSpace then
        some (branch.add { content := Text.space, kind := .input, marker })
      else if branch.hasInput then none
      else some (branch.add { content := Text.space, kind, marker }))
      (Path.follow? place [Piece.space]) := by
  have nonempty : Text.space ≠ [] := List.cons_ne_nil _ _
  rw [Path.follow?_single]
  change Follows _ ((Text.overlap? true place.left Text.space).map _)
  rw [overlap?_space, ← here.left]
  by_cases opens : branch.input.startsWithSpace = true
  · obtain ⟨next, added, spells⟩ := Branch.spells_typed here.sound here.unfinished nonempty
      (Text.eq_space_append opens) (Text.Alike.refl Text.space) marker
    rw [if_pos opens, if_pos opens, added]
    exact .inr ⟨next, _, rfl, rfl, here.spells spells⟩
  · rw [if_neg opens, if_neg opens]
    by_cases used : branch.input = []
    · obtain ⟨next, added, spells⟩ :=
        Branch.spells_offered here.unfinished offers nonempty used marker
      rw [if_neg (by simp [Branch.hasInput, used]), if_pos (by simp [used]), added]
      exact .inr ⟨next, _, rfl, rfl, here.spells spells⟩
    · rw [if_pos (Branch.hasInput_iff.mpr used), if_neg (by simpa using used)]
      exact .inl ⟨rfl, rfl⟩

theorem follows_opened? (marker : Option Marker) (here : branch.At place) :
    Follows (opened? marker branch) (Path.follow? place (Spelling.opening place.spelled)) := by
  unfold opened? Spelling.opening
  rw [here.hasParts, here.spelled, Bool.not_not]
  by_cases separated : (place.spelled.isEmpty || place.spelled.endsWithSpace) = true
  · rw [if_pos separated, if_pos separated]
    exact .inr ⟨branch, place, rfl, rfl, here⟩
  · rw [if_neg separated, if_neg separated]
    exact follows_space marker here (.inr rfl)

theorem follows_closeItem? (marker : Option Marker) (here : branch.At place)
    (unspaced : place.spelled.endsWithSpace = false) :
    Follows (closeItem? marker (.ok branch)) (Path.follow? place [Piece.space]) := by
  have running : ¬ (branch.spelled.endsWithSpace || branch.isFinished) = true := by
    simp [here.spelled, here.unfinished, unspaced]
  rw [closeItem?, closed?, if_neg running]
  exact follows_space marker here (.inl rfl)

theorem endsWithSpace_append {before text : Text} (nonempty : text ≠ []) :
    (before ++ text).endsWithSpace = text.endsWithSpace := by
  unfold Text.endsWithSpace
  rw [List.getLast?_append_of_ne_nil before nonempty]

theorem realizes_step {settings : Settings H} {child : Parser H} {text : Text}
    (nonempty : text ≠ []) (unspaced : text.endsWithSpace = false)
    (children : settings.children = [child]) (realizes : child.Realizes (.single ⟨text, false⟩)) :
    (Word.step settings).Realizes (.word text) := by
  intro branch place items here gives
  rw [Spelling.reach_word]
  rw [step] at gives
  rw [children] at gives
  rcases follows_opened? settings.marker here with
    ⟨refused, nowhere⟩ | ⟨next, opened, answered, followed, there⟩
  · rw [refused] at gives
    rw [Run.gives_empty (Action.gives_pure gives), nowhere]
    exact .nil
  · rw [answered] at gives
    obtain ⟨run, begun, filtered⟩ := Action.gives_bind gives
    obtain ⟨heads, given, rfl⟩ := Run.gives_filterMap (Action.gives_pure filtered)
    have landed := realizes next opened heads there ⟨run, begun, given⟩
    rw [Spelling.reach_single] at landed
    rw [followed, Option.bind_some]
    cases read : Path.follow? opened [⟨text, false⟩] with
    | none =>
        rw [read] at landed
        cases landed
        exact .nil
    | some inside =>
        rw [read] at landed
        cases landed with
        | cons first others =>
            cases others
            obtain ⟨inner, rfl, inner_at⟩ := first
            have spelled : inside.spelled = opened.spelled ++ text := by
              rw [Path.follow?_spelled read]
              simp [Path.text]
            have ends : inside.spelled.endsWithSpace = false := by
              rw [spelled, endsWithSpace_append nonempty, unspaced]
            rw [Option.bind_some]
            rcases follows_closeItem? settings.marker inner_at ends with
              ⟨refused, nowhere⟩ | ⟨last, closed, answered, followed, there⟩
            · rw [nowhere, List.filterMap_cons_none refused]
              exact .nil
            · rw [followed, List.filterMap_cons_some answered]
              exact .cons ⟨last, rfl, there⟩ .nil

end Word

end Typeahead
