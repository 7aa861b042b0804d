import Typeahead.Proofs.Branch.Adding
import Typeahead.Proofs.Text.Cuts

namespace Typeahead

/-! The parts of a branch lie over its input.

Whatever is done to a branch, its parts split into those that spell the covered
input, up to case, and those behind it.  Behind the input there is text only once
the input is used up, so a branch never says more than was typed before it has
read all that was typed. -/

variable {H : Host}

inductive Change (H : Host) where
  | fork (world : H.World)
  | add (part : Part)
  | addScore (factor : Float)
  | finish
  | setData (data : H.Data)
  | setContexts (contexts : Contexts H)
  | setStack (stack : List String)

/-- The branch as a change leaves it, also one that fails. -/
def Change.apply (branch : Branch H) : Change H → Branch H
  | .fork world => (branch.fork world).result
  | .add part => (Branch.Call.add part).leave branch
  | .addScore factor => (Branch.Call.addScore factor).leave branch
  | .finish => branch.finish
  | .setData data => { branch with data }
  | .setContexts contexts => { branch with contexts }
  | .setStack stack => { branch with stack }

namespace Branch

/-- Made from a text by changes alone, some of which may have failed. -/
def Reachable (branch : Branch H) : Prop :=
  ∃ given holder world, ∃ changes : List (Change H),
    branch = changes.foldl Change.apply (root given holder world).result

structure Overlaid (branch : Branch H) : Prop where
  within : branch.consumed ≤ branch.given.byteSize
  /-- The given input is cut between characters, with the input behind the cut.  The parts
  that come first lie over what is in front of it, and the others behind it. -/
  covered : ∃ front covering behind,
    Text.CutAt branch.given branch.consumed front branch.input ∧
    branch.parts = covering ++ behind ∧ Text.Alike false (Part.spelled covering) front ∧
    (∀ part ∈ behind, part.kind ≠ .input) ∧
    (∀ part ∈ behind, part.isSpelled = true → part.content ≠ [] → branch.input = [])
  suggested : branch.hasKind .suggestion = true → branch.input = []

variable {branch next : Branch H} {part : Part}

@[simp] theorem withPart_hasKind (kind : PartKind) :
    (branch.withPart part).hasKind kind = (branch.hasKind kind || part.kind == kind) := by
  simp [hasKind]

/-- The input behind a lead of it, which is not empty, once the lead is covered. -/
theorem consumed_input {spelled rest : Text} (nonempty : spelled ≠ [])
    (split : branch.input = spelled ++ rest) :
    input { branch with consumed := branch.consumed + spelled.byteSize } = rest ∧
      branch.pastEnd = false := by
  have present : branch.pastEnd = false := by
    cases past : branch.pastEnd with
    | true => simp [input, past, nonempty] at split
    | false => rfl
  have left : branch.ahead = spelled ++ rest := by simpa [input, present] using split
  have covered := consumed_ahead split
  rw [left, List.drop_left] at covered
  refine ⟨?_, present⟩
  rw [← covered, input, if_neg]
  exact ne_true_of_eq_false present

theorem leaveInput_input (content : Text) (used : branch.input = []) :
    (branch.leaveInput content).input = [] := by
  rw [leaveInput]
  split
  · exact used
  · simp [input]

namespace Overlaid

theorem of_cut (front : Text) (covering behind : List Part)
    (cut : Text.CutAt branch.given branch.consumed front branch.input)
    (parts : branch.parts = covering ++ behind)
    (alike : Text.Alike false (Part.spelled covering) front)
    (virtual : ∀ part ∈ behind, part.kind ≠ .input)
    (used : ∀ part ∈ behind, part.isSpelled = true → part.content ≠ [] → branch.input = [])
    (suggested : branch.hasKind .suggestion = true → branch.input = []) : branch.Overlaid :=
  ⟨cut.within, ⟨front, covering, behind, cut, parts, alike, virtual, used⟩, suggested⟩

theorem congr (sound : branch.Overlaid) (given : next.given = branch.given)
    (parts : next.parts = branch.parts) (consumed : next.consumed = branch.consumed)
    (input : next.input = branch.input) : next.Overlaid where
  within := by rw [given, consumed]; exact sound.within
  covered := by rw [parts, given, consumed, input]; exact sound.covered
  suggested := by
    rw [hasKind, parts, input]
    exact sound.suggested

theorem root (given : Text) (holder : Holder H) (world : H.World) :
    (Branch.root given holder world).result.Overlaid := by
  refine of_cut [] [] [] ?_ rfl Text.Alike.nil (by simp) (by simp) ?_
  · rw [input_of_start rfl rfl]
    exact Text.cutAt_append [] given
  · intro found
    contradiction

theorem withFuzzy (sound : branch.Overlaid) (kind : part.kind = .fuzzy) :
    (branch.withPart part).Overlaid := by
  obtain ⟨front, covering, behind, cut, parts, alike, virtual, used⟩ := sound.covered
  refine of_cut front covering (behind ++ [part]) cut (by simp [parts]) alike ?_ ?_ ?_
  · intro other member
    rcases List.mem_append.mp member with old | new
    · exact virtual other old
    · rw [List.mem_singleton.mp new, kind]
      decide
  · intro other member isSpelled nonempty
    rcases List.mem_append.mp member with old | new
    · exact used other old isSpelled nonempty
    · rw [List.mem_singleton.mp new] at isSpelled
      simp [Part.isSpelled, kind] at isSpelled
  · simp only [withPart_hasKind, kind]
    simpa using sound.suggested

theorem withOver {spelled rest : Text} (sound : branch.Overlaid) (nonempty : part.content ≠ [])
    (kind : part.kind = .input ∨ part.kind = .whitespace)
    (split : branch.input = spelled ++ rest) (alike : Text.Alike false spelled part.content) :
    (withPart { branch with consumed := branch.consumed + spelled.byteSize } part).Overlaid := by
  have nonempty' : spelled ≠ [] := fun empty => nonempty (alike.eq_nil_iff.mp empty)
  have left : branch.input ≠ [] := by simp [split, nonempty']
  have isSpelled : part.isSpelled = true := by
    rcases kind with kind | kind <;> simp [Part.isSpelled, kind]
  obtain ⟨front, covering, behind, cut, parts, lead, virtual, used⟩ := sound.covered
  obtain ⟨given, size⟩ := Text.cutAt_iff.mp cut
  -- nothing that is spelled can lie behind input that is still there
  have silent : Part.spelled behind = [] := by
    rw [Part.spelled_eq_nil_iff]
    intro other member isSpelled
    by_contra nonempty
    exact left (used other member isSpelled nonempty)
  refine of_cut (front ++ spelled) (covering ++ behind ++ [part]) [] ?_ (by simp [parts]) ?_
    (by simp) (by simp) ?_
  · rw [withPart_input, (consumed_input nonempty' split).1]
    refine Text.cutAt_iff.mpr ⟨?_, ?_⟩
    · rw [List.append_assoc, ← split]
      exact given
    · rw [Text.byteSize_append, ← size]
      rfl
  · rw [Part.spelled_append, Part.spelled_append, silent, List.append_nil,
      Part.spelled_singleton isSpelled]
    exact lead.append alike.symm
  · intro found
    rw [withPart_hasKind] at found
    change (branch.hasKind .suggestion || part.kind == .suggestion) = true at found
    have old : branch.hasKind .suggestion = true := by
      rcases kind with kind | kind <;> simpa [kind] using found
    exact absurd (sound.suggested old) left

theorem withBehind (sound : branch.Overlaid) (notInput : part.kind ≠ .input)
    (used : branch.input = []) :
    ((branch.leaveInput part.content).withPart part).Overlaid := by
  have unread := leaveInput_input part.content used
  obtain ⟨front, covering, behind, cut, parts, lead, virtual, _⟩ := sound.covered
  rw [used] at cut
  obtain ⟨pastEnd, same⟩ := branch.leaveInput_eq part.content
  rw [same] at unread ⊢
  refine of_cut front covering (behind ++ [part]) ?_ (by simp [parts]) lead ?_
    (fun _ _ _ _ => unread) fun _ => unread
  · rw [withPart_input, unread]
    exact cut
  · intro other member
    rcases List.mem_append.mp member with old | new
    · exact virtual other old
    · rw [List.mem_singleton.mp new]
      exact notInput

theorem add (sound : branch.Overlaid) (added : branch.add part = .ok next) : next.Overlaid := by
  cases add_eq_ok_iff.mp added with
  | beside nonempty kind => exact sound.withFuzzy kind
  | covering nonempty kind split alike =>
      exact sound.withOver nonempty (kind.imp_left And.left) split alike
  | behind nonempty kind used =>
      refine sound.withBehind ?_ used
      rcases kind with kind | kind | kind <;> simp [kind]

theorem addScore {factor : Float} (sound : branch.Overlaid)
    (added : branch.addScore factor = .ok next) : next.Overlaid := by
  rw [addScore_eq_ok added]
  exact sound.congr rfl rfl rfl rfl

theorem change (sound : branch.Overlaid) (change : Change H) :
    (change.apply branch).Overlaid := by
  cases change with
  | add part => exact (Call.atomic_add part).leaves sound fun _ => sound.add
  | addScore factor => exact (Call.atomic_addScore factor).leaves sound fun _ => sound.addScore
  | fork world | finish | setData data | setContexts contexts | setStack stack =>
      exact sound.congr rfl rfl rfl rfl

theorem changes (sound : branch.Overlaid) (changes : List (Change H)) :
    (changes.foldl Change.apply branch).Overlaid := by
  induction changes generalizing branch with
  | nil => exact sound
  | cons first others ih => exact ih (sound.change first)

theorem reachable (reached : branch.Reachable) : branch.Overlaid := by
  obtain ⟨given, holder, world, done, rfl⟩ := reached
  exact (root given holder world).changes done

/-- Behind what is covered there is the input, also where nothing of it can be read any more. -/
theorem input_eq (sound : branch.Overlaid) : branch.input = branch.ahead := by
  obtain ⟨front, _, _, cut, _⟩ := sound.covered
  rw [ahead, Text.dropBytes?_eq_some_iff_cutAt.mpr ⟨front, cut⟩, Option.getD_some]

/-- The spelled text is a lead over the input and then a tail, which is empty while
input is left. -/
theorem spelled_eq (sound : branch.Overlaid) :
    ∃ front lead tail, Text.CutAt branch.given branch.consumed front branch.input ∧
      branch.spelled = lead ++ tail ∧ Text.Alike false lead front ∧
      (tail ≠ [] → branch.input = []) := by
  obtain ⟨front, covering, behind, cut, parts, lead, _, used⟩ := sound.covered
  refine ⟨front, Part.spelled covering, Part.spelled behind, cut, ?_, lead, ?_⟩
  · rw [spelled, parts, Part.spelled_append]
  · intro nonempty
    rw [Ne, Part.spelled_eq_nil_iff] at nonempty
    push Not at nonempty
    obtain ⟨part, member, isSpelled, content⟩ := nonempty
    exact used part member isSpelled content

/-- Behind the end all bytes are covered. -/
theorem consumed_eq (sound : branch.Overlaid) (used : branch.input = []) :
    branch.consumed = branch.given.byteSize := by
  obtain ⟨front, _, _, cut, _⟩ := sound.covered
  obtain ⟨given, size⟩ := Text.cutAt_iff.mp cut
  rw [used, List.append_nil] at given
  rw [given, size]

end Overlaid

theorem given_change (branch : Branch H) (change : Change H) :
    (change.apply branch).given = branch.given := by
  cases change with
  | add part =>
      refine (Call.atomic_add part).leaves (P := fun next => next.given = branch.given) rfl ?_
      intro next added
      obtain ⟨consumed, pastEnd, rfl⟩ := add_eq_ok added
      rfl
  | addScore factor =>
      refine (Call.atomic_addScore factor).leaves (P := fun next => next.given = branch.given) rfl ?_
      intro next added
      rw [addScore_eq_ok added]
  | fork world | finish | setData data | setContexts contexts | setStack stack => rfl

theorem given_changes (branch : Branch H) (changes : List (Change H)) :
    (changes.foldl Change.apply branch).given = branch.given := by
  induction changes generalizing branch with
  | nil => rfl
  | cons first others ih => exact (ih (first.apply branch)).trans (branch.given_change first)

/-- Whatever was done to a branch since it was made from a text. -/
theorem overlaid_of_changes (given : Text) (holder : Holder H) (world : H.World)
    (changes : List (Change H)) :
    let branch := changes.foldl Change.apply (Branch.root given holder world).result
    branch.given = given ∧ branch.Overlaid ∧
      (branch.pastEnd = true → branch.consumed = given.byteSize) ∧
      ∃ front lead tail, Text.CutAt given branch.consumed front branch.input ∧
        branch.spelled = lead ++ tail ∧ Text.Alike false lead front ∧
        (tail ≠ [] → branch.input = []) := by
  intro branch
  have sound : branch.Overlaid := (Overlaid.root given holder world).changes changes
  have same : branch.given = given := given_changes _ changes
  refine ⟨same, sound, ?_, same ▸ sound.spelled_eq⟩
  intro past
  rw [← same]
  exact sound.consumed_eq (by simp [input, past])

end Branch

end Typeahead
