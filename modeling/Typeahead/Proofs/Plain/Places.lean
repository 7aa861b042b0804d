import Typeahead.Matcher.Literal
import Typeahead.Proofs.Parser
import Typeahead.Proofs.Plain.Spelling

namespace Typeahead

/-! Branches at places.

A parser realizes a spelling when, from any place, the branches it leaves stand one
by one at the places that the spelling reaches. -/

variable {H : Host}

namespace Branch

/-- A running branch in front of the input of a place that spells the text of the
place and nothing else. -/
structure At (branch : Branch H) (place : Place) : Prop where
  sound : branch.Overlaid
  unfinished : branch.isFinished = false
  spelled : branch.spelled = place.spelled
  left : branch.input = place.left
  plain : ∀ part ∈ branch.parts, part.isSpelled = true ∧ part.content ≠ []

namespace At

variable {branch next : Branch H} {place : Place}

theorem root {given : Text} {holder : Holder H}
    (rooted : (Branch.root given holder).Results branch) : branch.At ⟨[], given⟩ := by
  obtain ⟨world, rfl⟩ := rooted
  refine ⟨Overlaid.root given holder world, rfl, rfl, input_of_start rfl rfl, ?_⟩
  intro part member
  contradiction

theorem carried (here : branch.At place) (data : H.Data) (lineage : Nat) (stack : List String) :
    At { branch with data, lineage, stack } place :=
  ⟨here.sound.congr rfl rfl rfl rfl, here.unfinished, here.spelled, here.left, here.plain⟩

theorem fork (here : branch.At place) (copied : branch.fork.Results next) : next.At place := by
  obtain ⟨data, rfl⟩ := fork_results copied
  exact here.carried data _ _

theorem spells {text rest : Text} (here : branch.At place)
    (spells : branch.Spells text rest next) : next.At ⟨place.spelled ++ text, rest⟩ := by
  obtain ⟨added, parts, content, plain⟩ := spells.parts
  refine ⟨here.sound.grown spells.grown, spells.unfinished, ?_, spells.input, ?_⟩
  · rw [Branch.spelled, parts, Part.spelled_append, content]
    exact congrArg (· ++ text) here.spelled
  · intro part member
    rw [parts] at member
    exact (List.mem_append.mp member).elim (here.plain part) (plain part)

theorem hasParts (here : branch.At place) : branch.hasParts = !place.spelled.isEmpty := by
  rw [← here.spelled]
  cases parts : branch.parts with
  | nil => simp [Branch.hasParts, Branch.spelled, parts]
  | cons part rest =>
      obtain ⟨isSpelled, nonempty⟩ := here.plain part (by simp [parts])
      have first : Part.spelled (part :: rest) = part.content ++ Part.spelled rest := by
        rw [← Part.spelled_singleton isSpelled, ← Part.spelled_append]
        rfl
      simp [Branch.hasParts, Branch.spelled, parts, first, nonempty]

end At

end Branch

def Item.Lands (item : Item H) (place : Place) : Prop :=
  ∃ branch, item = .ok branch ∧ branch.At place

/-- From every place, the branches that are left stand at the places that are reached. -/
def Step.Realizes (step : Step H) (spelling : Spelling) : Prop :=
  ∀ branch place items, branch.At place → (step branch).Gives items →
    List.Forall₂ Item.Lands items (spelling.reach place)

def Parser.Realizes (parser : Parser H) (spelling : Spelling) : Prop :=
  Step.Realizes parser.start spelling

theorem Item.Carries.lands {item carried : Item H} {place : Place} (carries : item.Carries carried)
    (lands : item.Lands place) : carried.Lands place := by
  obtain ⟨branch, rfl, here⟩ := lands
  cases carries with
  | ok _ data => exact ⟨_, rfl, here.carried data _ _⟩

theorem Parser.realizes_around {name : String} {settings : Settings H} {matching : Step H}
    {spelling : Spelling} (placeholder : settings.placeholder = none)
    (requiresInput : settings.requiresInput = false) (realizes : matching.Realizes spelling) :
    (Parser.around name true settings matching).Realizes spelling := by
  intro branch place items here gives
  obtain ⟨inner, given, rfl⟩ := gives_around here.unfinished placeholder requiresInput gives
  have landed := realizes _ place inner (here.carried branch.data branch.lineage _) given
  refine List.forall₂_map_left_iff.mpr (landed.imp ?_)
  rintro _ place ⟨next, rfl, there⟩
  exact ⟨next.popStack, rfl, there.carried next.data next.lineage _⟩

theorem Literal.realizes_step {literal : Literal} (nonempty : literal.text ≠ [])
    (settings : Settings H) :
    (literal.step settings).Realizes (.single ⟨literal.text, literal.caseSensitive⟩) := by
  intro branch place items here gives
  rw [Spelling.reach_single, Path.follow?_single]
  rw [step] at gives
  rw [here.left] at gives
  cases found : Text.overlap? literal.caseSensitive place.left literal.text with
  | none =>
      rw [found] at gives
      rw [Run.gives_empty (Action.gives_pure gives)]
      exact .nil
  | some overlap =>
      obtain ⟨next, added, spells⟩ := Branch.addOverlap_ok here.sound here.unfinished nonempty
        (here.left ▸ found) settings.marker
      simp only [found, added] at gives
      obtain ⟨item, rfl, carries⟩ := Settings.gives_yieldExtended gives
      exact .cons (carries.lands ⟨next, rfl, here.spells spells⟩) .nil

end Typeahead
