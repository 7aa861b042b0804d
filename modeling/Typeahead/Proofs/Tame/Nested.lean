import Typeahead.Matcher.Choice
import Typeahead.Matcher.Pick
import Typeahead.Matcher.Repetition
import Typeahead.Matcher.Word
import Typeahead.Proofs.Run.Levels
import Typeahead.Proofs.Tame.Leaves

namespace Typeahead

/-! Parsers are tame when their children are. -/

variable {H : Host}

def Settings.TameChildren (settings : Settings H) : Prop :=
  ∀ child ∈ settings.children, child.Tame

namespace Branch.Leads

variable {branch : Branch H} {items : List (Item H)}

theorem thenExtend {run : Run H (Item H)} {extend : Branch H → Action H (Run H (Item H))}
    {item : Item H} (yielded : (run.thenExtend extend).Yields item)
    (first : ∀ head, run.Yields head → branch.Leads head)
    (further : ∀ copy, branch.Grown copy → (extend copy).Yields item → branch.Leads item) :
    branch.Leads item := by
  rcases Run.yields_thenExtend yielded with head | ⟨next, copy, head, copied, extended⟩
  · exact first item head
  · cases first (.ok next) head with
    | grown grown => exact further copy (grown.trans (Branch.Grown.fork copied)) extended

end Branch.Leads

namespace Fork

theorem tame_step {settings : Settings H} (children : settings.TameChildren) :
    (Fork.step settings).Tame := by
  intro branch item sound unfinished yielded
  obtain ⟨child, member, started⟩ := Run.yields_concatMap (Action.yields_pure yielded)
  obtain ⟨copy, copied, continued⟩ := Action.yields_bind started
  exact (children child member).after sound (Branch.Grown.fork copied) continued

end Fork

namespace Optional

theorem tame_step {settings : Settings H} (children : settings.TameChildren) :
    (Optional.step settings).Tame := by
  intro branch item sound unfinished yielded
  obtain ⟨skipped, copied, rest⟩ := Action.yields_bind yielded
  rcases Run.yields_cons (Action.yields_pure rest) with rfl | later
  · exact .grown (Branch.Grown.fork copied)
  · have continued := Run.yields_defer later
    split at continued
    · exact absurd continued Action.not_yields_empty
    · rename_i child others same
      exact children child (by simp [same]) branch item sound continued

end Optional

namespace Pick

theorem mem_selections {α : Type} {all others : List α} {chosen : α}
    (found : (chosen, others) ∈ selections all) :
    chosen ∈ all ∧ ∀ other ∈ others, other ∈ all := by
  induction all generalizing others with
  | nil => simp [selections] at found
  | cons member rest ih =>
      rcases List.mem_cons.mp found with first | later
      · cases first
        exact ⟨List.mem_cons_self, fun other => List.mem_cons_of_mem chosen⟩
      · obtain ⟨⟨chosen', unused⟩, among, same⟩ := List.mem_map.mp later
        cases same
        obtain ⟨inRest, inside⟩ := ih among
        refine ⟨List.mem_cons_of_mem member inRest, fun other found => ?_⟩
        rcases List.mem_cons.mp found with rfl | behind
        · exact List.mem_cons_self
        · exact List.mem_cons_of_mem member (inside other behind)

theorem leads_chains {depth : Nat} {unused : List (Parser H)} {branch : Branch H} {item : Item H}
    (tame : ∀ child ∈ unused, child.Tame) (sound : branch.Overlaid)
    (yielded : (chains depth unused branch).Yields item) : branch.Leads item := by
  induction depth generalizing unused branch with
  | zero => exact absurd yielded Run.not_yields_empty
  | succ depth ih =>
      obtain ⟨⟨child, others⟩, member, started⟩ := Run.yields_concatMap yielded
      obtain ⟨inUnused, inside⟩ := mem_selections member
      obtain ⟨copy, copied, continued⟩ := Action.yields_bind started
      obtain ⟨run, begun, chained⟩ := Action.yields_bind continued
      have grown := Branch.Grown.fork copied
      refine Branch.Leads.thenExtend (Action.yields_pure chained) ?_ ?_
      · intro head first
        exact (tame child inUnused).after sound grown (Action.yields_of_results begun first)
      · intro rest further extended
        have leads := ih (fun other found => tame other (inside other found))
          (sound.grown further) (Action.yields_pure extended)
        exact leads.after further

theorem yields_step {pick : Pick} {settings : Settings H} {branch : Branch H} {item : Item H}
    (yielded : (pick.step settings branch).Yields item) :
    (chains settings.children.length settings.children branch).Yields item := by
  unfold step at yielded
  dsimp only at yielded
  split at yielded
  · exact Action.yields_pure yielded
  · exact Action.yields_pure yielded
  · exact Run.yields_take (Action.yields_pure yielded)

theorem tame_step {settings : Settings H} (pick : Pick) (children : settings.TameChildren) :
    (pick.step settings).Tame := by
  intro branch item sound unfinished yielded
  exact leads_chains children sound (yields_step yielded)

end Pick

namespace Sequence

theorem leads_levels {children : List (Parser H)} {root : Branch H}
    {live survivors : List (Branch H)} {errors : List Error}
    (tame : ∀ child ∈ children, child.Tame) (sound : root.Overlaid)
    (grown : ∀ branch ∈ live, root.Grown branch)
    (ran : (levels children live).Results (errors, survivors)) :
    (∀ cause ∈ errors, cause.IsPenalty) ∧ ∀ branch ∈ survivors, root.Grown branch := by
  induction children generalizing live errors survivors with
  | nil =>
      cases Action.results_pure ran
      exact ⟨by simp, grown⟩
  | cons child others ih =>
      obtain ⟨items, later, ofLevel, ofOthers, rfl⟩ := levels_cons ran
      have leads : ∀ item ∈ items, root.Leads item := by
        intro item member
        obtain ⟨branch, among, yielded⟩ := yields_of_level ofLevel member
        exact (tame child List.mem_cons_self).after sound (grown branch among) yielded
      have continued : ∀ branch ∈ branchesOf items, root.Grown branch := by
        intro branch member
        cases leads _ (mem_branchesOf.mp member) with
        | grown further => exact further
      obtain ⟨penalties, survive⟩ := ih (fun other member =>
        tame other (List.mem_cons_of_mem child member)) continued ofOthers
      refine ⟨?_, survive⟩
      intro cause member
      rcases List.mem_append.mp member with here | behind
      · cases leads _ (mem_errorsOf.mp here) with
        | fails penalty => exact penalty
      · exact penalties cause behind

theorem tame_step {settings : Settings H} (children : settings.TameChildren) :
    (Sequence.step settings).Tame := by
  intro branch item sound unfinished yielded
  obtain ⟨errors, survivors, ran, found⟩ := yields_step yielded
  have alone : ∀ other ∈ [branch], branch.Grown other := by
    intro other member
    rw [List.mem_singleton.mp member]
  obtain ⟨penalties, survive⟩ := leads_levels children sound alone ran
  rcases found with ⟨cause, member, rfl⟩ | ⟨next, member, rfl⟩
  · exact .fails (penalties cause member)
  · exact .grown (survive next member)

end Sequence

namespace Word

variable {branch : Branch H} {marker : Option Marker} {item : Item H}

theorem spells_typedSpace (marker : Option Marker) (sound : branch.Overlaid)
    (opens : branch.input.startsWithSpace = true) :
    ∃ next, branch.add { content := Text.space, kind := .input, marker } = .ok next ∧
      branch.Grown next ∧ (branch.isFinished = false → next.isFinished = false) := by
  have split : branch.input = Text.space ++ branch.input.tail := Text.eq_space_append opens
  obtain ⟨next, added, _, same⟩ :=
    Branch.add_typed sound (List.cons_ne_nil _ _) split (Text.Alike.refl Text.space) marker
  refine ⟨next, added, .single (.typed rfl added), fun unfinished => ?_⟩
  rw [same, Branch.withPart_isFinished]
  change (branch.isFinished || false) = false
  rw [unfinished, Bool.false_or]

theorem opened?_eq_some (sound : branch.Overlaid) (unfinished : branch.isFinished = false)
    (opened : opened? marker branch = some item) :
    ∃ next, item = .ok next ∧ branch.Grown next ∧ next.isFinished = false := by
  rw [opened?] at opened
  split at opened
  · cases opened
    exact ⟨branch, rfl, .refl, unfinished⟩
  · split at opened
    · rename_i opens
      obtain ⟨next, added, grown, open'⟩ := spells_typedSpace marker sound opens
      rw [added] at opened
      cases opened
      exact ⟨next, rfl, grown, open' unfinished⟩
    · split at opened
      · simp at opened
      · rename_i lacking
        have used := Branch.hasInput_eq_false_iff.mp (by simpa using lacking)
        obtain ⟨next, added, spells⟩ : ∃ next, branch.add ⟨Text.space, .whitespace, marker⟩ =
            .ok next ∧ branch.Spells Text.space [] next :=
          Branch.spells_offered unfinished (.inr rfl) (List.cons_ne_nil _ _) used marker
        rw [added] at opened
        cases opened
        exact ⟨next, rfl, spells.grown, spells.unfinished⟩

theorem leads_closed? (sound : branch.Overlaid) (closed : closed? marker branch = some item) :
    branch.Leads item := by
  rw [closed?] at closed
  split at closed
  · rename_i opens
    obtain ⟨next, added, grown, _⟩ := spells_typedSpace marker sound opens
    rw [added] at closed
    cases closed
    exact .grown grown
  · split at closed
    · cases closed
      exact .grown .refl
    · rename_i running
      split at closed
      · simp at closed
      · rename_i lacking
        have used := Branch.hasInput_eq_false_iff.mp (by simpa using lacking)
        have unfinished : branch.isFinished = false := by
          by_contra finished
          exact running (by simp [finished])
        obtain ⟨next, added, spells⟩ : ∃ next, branch.add ⟨Text.space, .suggestion, marker⟩ =
            .ok next ∧ branch.Spells Text.space [] next :=
          Branch.spells_offered unfinished (.inl rfl) (List.cons_ne_nil _ _) used marker
        rw [added] at closed
        cases closed
        exact .grown spells.grown

/-- Where a word ends, its child was between the two separators. -/
theorem yields_step {settings : Settings H} {next : Branch H}
    (yielded : (step settings branch).Yields (.ok next)) :
    ∃ child ∈ settings.children, ∃ entered inner,
      opened? settings.marker branch = some (.ok entered) ∧
      (child.start entered).Yields (.ok inner) ∧
      closed? settings.marker inner = some (.ok next) := by
  rw [step] at yielded
  split at yielded
  · exact absurd yielded Action.not_yields_empty
  · have failed := Run.yields_one (Action.yields_pure yielded)
    contradiction
  · have failed := Run.yields_one (Action.yields_pure yielded)
    contradiction
  · rename_i entered child others opened among
    obtain ⟨run, begun, filtered⟩ := Action.yields_bind yielded
    obtain ⟨inner, found, closes⟩ := Run.yields_filterMap (Action.yields_pure filtered)
    cases inner with
    | error cause => cases closes
    | ok inner =>
        exact ⟨child, by simp [among], entered, inner, opened,
          Action.yields_of_results begun found, closes⟩

theorem tame_step {settings : Settings H} (nonempty : settings.children ≠ [])
    (children : settings.TameChildren) : (Word.step settings).Tame := by
  intro branch item sound unfinished yielded
  rw [step] at yielded
  cases opened : opened? settings.marker branch with
  | none =>
      rw [opened] at yielded
      exact absurd yielded Action.not_yields_empty
  | some head =>
      obtain ⟨next, rfl, grown, _⟩ := opened?_eq_some sound unfinished opened
      cases among : settings.children with
      | nil => exact absurd among nonempty
      | cons child others =>
          rw [opened, among] at yielded
          obtain ⟨run, begun, filtered⟩ := Action.yields_bind yielded
          obtain ⟨inner, found, closed⟩ := Run.yields_filterMap (Action.yields_pure filtered)
          have tame := children child (by simp [among])
          have leads := tame.after sound grown (Action.yields_of_results begun found)
          cases leads with
          | grown further => exact (leads_closed? (sound.grown further) closed).after further
          | fails penalty =>
              cases closed
              exact .fails penalty

/-- A word of text is completed by a literal of its own marker. -/
theorem prepare_eq_ok {word : Word} {settings prepared : Settings H}
    (completed : word.prepare settings = .ok prepared) :
    prepared = settings ∨ ∃ text inner,
      (Literal.matcher { text }).build true
        { marker := settings.marker, onEmission := settings.onEmission } = .ok inner ∧
      prepared = { settings with children := [inner] } := by
  cases text : word.text with
  | none =>
      simp only [prepare, text, Except.ok.injEq] at completed
      exact .inl completed.symm
  | some content =>
      simp only [prepare, text] at completed
      obtain ⟨inner, built, made⟩ := Except.bind_eq_ok completed
      exact .inr ⟨content, inner, built, (Except.ok.inj made).symm⟩

/-- There is something to read in a word that was checked. -/
theorem prepared_nonempty {word : Word} {settings prepared : Settings H}
    (checked : word.check settings = .ok ()) (completed : word.prepare settings = .ok prepared) :
    prepared.children ≠ [] := by
  cases text : word.text with
  | none =>
      simp only [check, text] at checked
      simp only [prepare, text, Except.ok.injEq] at completed
      subst completed
      intro empty
      simp [empty] at checked
  | some content =>
      simp only [prepare, text] at completed
      obtain ⟨inner, _, made⟩ := Except.bind_eq_ok completed
      cases made
      simp

theorem tame_prepare {word : Word} {settings prepared : Settings H}
    (completed : word.prepare settings = .ok prepared) (children : settings.TameChildren) :
    prepared.TameChildren := by
  rcases prepare_eq_ok completed with rfl | ⟨text, inner, built, rfl⟩
  · exact children
  · intro child member
    rw [List.mem_singleton.mp member]
    exact Matcher.tame_build built fun _ checked _ => Literal.tame_matcher checked _

end Word

namespace Repetition

variable {repetition : Repetition} {child : Parser H} {branch : Branch H} {item : Item H}

theorem leads_glued {extend : Branch H → Action H (Run H (Item H))} {glue : Text}
    (tame : child.Tame) (sound : branch.Overlaid) (unfinished : branch.isFinished = false)
    (nonempty : glue ≠ [])
    (further : ∀ copy, branch.Grown copy → (extend copy).Yields item → branch.Leads item)
    (yielded : (glued child extend branch glue).Yields item) : branch.Leads item := by
  rw [glued] at yielded
  split at yielded
  · exact absurd yielded Action.not_yields_empty
  · rename_i overlap found
    obtain ⟨copy, copied, joining⟩ := Action.yields_bind yielded
    have grown := Branch.Grown.fork copied
    obtain ⟨data, rfl⟩ := Branch.fork_results copied
    obtain ⟨joined, added, spells⟩ :=
      Branch.addOverlap_ok (sound.grown grown) unfinished nonempty found none
    have grown' := grown.trans spells.grown
    simp only [added] at joining
    split at joining
    · rw [Run.yields_one (Action.yields_pure joining)]
      exact .grown grown'
    · obtain ⟨run, begun, extended⟩ := Action.yields_bind joining
      refine Branch.Leads.thenExtend (Action.yields_pure extended) ?_ further
      intro head first
      exact tame.after sound grown' (Action.yields_of_results begun first)

theorem leads_extensions {remaining : Nat} (tame : child.Tame)
    (nonempty : ∀ glue ∈ repetition.glue, glue ≠ []) (sound : branch.Overlaid)
    (yielded : (repetition.extensions child remaining branch).Yields item) :
    branch.Leads item := by
  -- each further occurrence takes one from the number that is still allowed
  induction remaining generalizing branch with
  | zero => exact absurd yielded Action.not_yields_empty
  | succ allowed ih =>
      cases allowed with
      | zero => exact absurd yielded Action.not_yields_empty
      | succ remaining =>
          rw [extensions] at yielded
          split at yielded
          · exact absurd yielded Action.not_yields_empty
          · rename_i running
            have unfinished : branch.isFinished = false := by
              by_contra finished
              exact running (by simp [finished])
            split at yielded
            · rename_i text shown
              have wanted : branch.wantsPlaceholder = true :=
                (Option.filter_eq_some_iff.mp shown).2
              have added : branch.add { content := text, kind := .placeholder } = .ok _ :=
                Branch.add_behind (.inr rfl) (.inr (.inr rfl))
                  (Branch.input_of_wantsPlaceholder wanted)
              rw [added] at yielded
              rw [Run.yields_one (Action.yields_pure yielded)]
              exact .grown (.single (.heldOpen unfinished rfl added))
            · obtain ⟨glue, member, joined⟩ := Run.yields_concatMap (Action.yields_pure yielded)
              refine leads_glued tame sound unfinished (nonempty glue member) ?_ joined
              intro copy grown extended
              exact (ih (sound.grown grown) extended).after grown

theorem tame_step {settings : Settings H} (nonempty : ∀ glue ∈ repetition.glue, glue ≠ [])
    (children : settings.TameChildren) : (repetition.step settings).Tame := by
  intro branch item sound unfinished yielded
  rw [step] at yielded
  split at yielded
  · exact absurd yielded Action.not_yields_empty
  · rename_i child others among
    have tame := children child (by simp [among])
    obtain ⟨run, begun, extended⟩ := Action.yields_bind yielded
    refine Branch.Leads.thenExtend (Action.yields_pure extended) ?_ ?_
    · intro head first
      exact tame.after sound .refl (Action.yields_of_results begun first)
    · intro copy grown further
      exact (leads_extensions tame nonempty (sound.grown grown) further).after grown

end Repetition

end Typeahead
