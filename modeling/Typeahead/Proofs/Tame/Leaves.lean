import Typeahead.Matcher.Freetext
import Typeahead.Matcher.Number
import Typeahead.Matcher.Whitespace
import Typeahead.Proofs.Branch.FixedText
import Typeahead.Proofs.Parser
import Typeahead.Proofs.Rule
import Typeahead.Proofs.Text.Leads

namespace Typeahead

/-! Tame parsers.

A tame parser makes of a branch nothing but what `Branch.Leads` allows.  The kinds
without children are tame because what they add always fits the input. -/

variable {H : Host}

def Step.Tame (step : Step H) : Prop :=
  ∀ branch item, branch.Overlaid → branch.isFinished = false → (step branch).Yields item →
    branch.Leads item

def Parser.Tame (parser : Parser H) : Prop :=
  ∀ branch item, branch.Overlaid → (parser.start branch).Yields item → branch.Leads item

theorem Parser.Tame.after {parser : Parser H} {branch next : Branch H} {item : Item H}
    (tame : parser.Tame) (sound : branch.Overlaid) (grown : branch.Grown next)
    (yielded : (parser.start next).Yields item) : branch.Leads item :=
  (tame next item (sound.grown grown) yielded).after grown

namespace Settings

variable {settings : Settings H} {branch next : Branch H}

theorem leads_addPlaceholder {text : Text} (unfinished : branch.isFinished = false)
    (used : branch.input = []) : branch.Leads (settings.addPlaceholder text branch) := by
  have added : branch.add { content := text, kind := .placeholder, marker := settings.marker } =
      .ok _ := Branch.add_behind (.inr rfl) (.inr (.inr rfl)) used
  rw [addPlaceholder, added]
  exact .grown (.single (.heldOpen unfinished rfl added))

theorem leads_yieldExtended {extended item : Item H} {emission : Option (Emission H)}
    (leads : branch.Leads extended)
    (yielded : (settings.yieldExtended extended emission).Yields item) : branch.Leads item :=
  leads.carries (yields_yieldExtended yielded)

end Settings

namespace Parser

variable {settings : Settings H} {enabled : Bool} {name : String} {matching : Step H}

theorem tame_around (tame : matching.Tame) :
    (Parser.around name enabled settings matching).Tame := by
  intro branch item sound yielded
  cases yields_around yielded with
  | passed => exact .grown .refl
  | shown unfinished used => exact Settings.leads_addPlaceholder unfinished used
  | finished used => exact .grown (.single (.finished used))
  | @matched head unfinished found =>
      have entered := Branch.Grown.pushStack branch name
      have leads := (tame _ head (sound.grown entered) unfinished found).after entered
      cases leads with
      | @grown next further =>
          exact .grown (further.trans (Branch.Grown.popStack next))
      | fails penalty => exact .fails penalty
  | @fellBack text copy unfinished used copied =>
      obtain ⟨data, rfl⟩ := Branch.fork_results copied
      have shown : Branch.Leads _ (settings.addPlaceholder text
          { branch with data, lineage := branch.lineage + 1 }) :=
        Settings.leads_addPlaceholder unfinished used
      exact shown.after (Branch.Grown.fork copied)

end Parser

theorem Matcher.tame_build {matcher : Matcher H} {enabled : Bool} {settings : Settings H}
    {parser : Parser H} (built : matcher.build enabled settings = .ok parser)
    (tame : ∀ prepared, matcher.check settings = .ok () →
      matcher.prepare settings = .ok prepared → (matcher.step prepared).Tame) : parser.Tame := by
  obtain ⟨prepared, checked, completed, rfl⟩ := Matcher.build_eq_ok built
  exact Parser.tame_around (tame prepared checked completed)

namespace Literal

variable {literal : Literal}

theorem tame_step (nonempty : literal.text ≠ []) (settings : Settings H) :
    (literal.step settings).Tame := by
  intro branch item sound unfinished yielded
  rw [step] at yielded
  cases found : Text.overlap? literal.caseSensitive branch.input literal.text with
  | none =>
      rw [found] at yielded
      exact absurd yielded Action.not_yields_empty
  | some overlap =>
      obtain ⟨next, added, spells⟩ :=
        Branch.addOverlap_ok sound unfinished nonempty found settings.marker
      simp only [found, added] at yielded
      exact Settings.leads_yieldExtended (.grown spells.grown) yielded

theorem tame_fuzzyStep (nonempty : literal.text ≠ []) (settings : Settings H) :
    (literal.fuzzyStep settings).Tame := by
  intro branch item sound unfinished yielded
  rw [fuzzyStep] at yielded
  cases found : Text.segments? { caseSensitive := literal.caseSensitive } branch.input
      literal.text with
  | none =>
      rw [found] at yielded
      exact absurd yielded Action.not_yields_empty
  | some segments =>
      rw [found] at yielded
      have reads := Text.Reads.of_segments? nonempty found
      have leads := Branch.addSegments_leads sound unfinished reads rfl settings.marker
      exact Settings.leads_yieldExtended leads yielded

theorem tame_matcher {settings : Settings H}
    (checked : literal.matcher.check settings = .ok ()) (prepared : Settings H) :
    (literal.matcher.step prepared).Tame := by
  have nonempty := check_eq_ok checked
  dsimp only [matcher]
  by_cases fuzzy : literal.fuzzy = true
  · rw [if_pos fuzzy]
    exact tame_fuzzyStep nonempty prepared
  · rw [if_neg fuzzy]
    exact tame_step nonempty prepared

end Literal

namespace Number

variable {number : Number}

theorem tame_readStep (settings : Settings H) : (number.readStep settings).Tame := by
  intro branch item sound unfinished yielded
  rw [readStep] at yielded
  split at yielded
  · exact absurd yielded Action.not_yields_empty
  · rename_i numeral found
    split at yielded
    · obtain ⟨lead, nonempty⟩ := Text.Numeral.leading?_prefix found
      obtain ⟨next, rest, added, spells⟩ :=
        Branch.spells_prefix sound unfinished lead nonempty settings.marker
      rw [added] at yielded
      exact Settings.leads_yieldExtended (.grown spells.grown) yielded
    · exact absurd yielded Action.not_yields_empty

theorem leads_offer {settings : Settings H} {branch : Branch H} {candidate : Int} {item : Item H}
    (sound : branch.Overlaid) (unfinished : branch.isFinished = false)
    (yielded : (offer settings branch candidate).Yields item) : branch.Leads item := by
  rw [offer] at yielded
  split at yielded
  · exact absurd yielded Action.not_yields_empty
  · rename_i overlap found
    obtain ⟨copy, copied, extended⟩ := Action.yields_bind yielded
    have grown := Branch.Grown.fork copied
    obtain ⟨data, rfl⟩ := Branch.fork_results copied
    obtain ⟨next, added, spells⟩ := Branch.addOverlap_ok (sound.grown grown) unfinished
      (Text.ofInt_ne_nil candidate) found settings.marker
    rw [added] at extended
    exact (Settings.leads_yieldExtended (.grown spells.grown) extended).after grown

theorem firstFit?_between {input : Text} {count behind : Nat} {candidate fit : Int}
    (found : firstFit? input count candidate = some (behind, fit)) :
    candidate ≤ fit ∧ fit + behind < candidate + count := by
  induction count generalizing candidate with
  | zero => simp [firstFit?] at found
  | succ count ih =>
      simp only [firstFit?] at found
      split at found
      · cases found
        omega
      · have := ih found
        omega

theorem offersFrom_eq (settings : Settings H) (branch : Branch H) (count : Nat)
    (candidate : Int) :
    offersFrom settings branch count candidate =
      match firstFit? branch.input count candidate with
      | none => .empty
      | some (behind, fit) => .defer do
          return (← offer settings branch fit).append
            (offersFrom settings branch behind (fit + 1)) := by
  rw [offersFrom, Run.delayed_eq]
  split <;> rename_i found <;> simp only [found]

theorem yields_offersFrom {settings : Settings H} {branch : Branch H} {count : Nat}
    {candidate : Int} {item : Item H}
    (yielded : (offersFrom settings branch count candidate).Yields item) :
    ∃ fit, candidate ≤ fit ∧ fit < candidate + count ∧ (offer settings branch fit).Yields item := by
  induction count using Nat.strongRecOn generalizing candidate with
  | ind count ih =>
      rw [offersFrom_eq] at yielded
      split at yielded
      · exact absurd yielded Run.not_yields_empty
      · rename_i behind fit found
        have within := firstFit?_between found
        obtain ⟨run, begun, given⟩ := Action.yields_bind (Run.yields_defer yielded)
        rcases Run.yields_append (Action.yields_pure given) with first | later
        · exact ⟨fit, within.1, by omega, Action.yields_of_results begun first⟩
        · obtain ⟨next, behind_fit, ahead, offered⟩ := ih behind (firstFit?_lt found) later
          exact ⟨next, by omega, by omega, offered⟩

theorem tame_offerStep (settings : Settings H) : (number.offerStep settings).Tame := by
  intro branch item sound unfinished yielded
  rw [offerStep] at yielded
  split at yielded
  · obtain ⟨fit, _, _, offered⟩ := yields_offersFrom (Action.yields_pure yielded)
    exact leads_offer sound unfinished offered
  · exact absurd yielded Action.not_yields_empty

theorem tame_matcher (settings : Settings H) : (number.matcher.step settings).Tame := by
  dsimp only [matcher]
  by_cases offers : number.offersAll = true
  · rw [if_pos offers]
    exact tame_offerStep settings
  · rw [if_neg offers]
    exact tame_readStep settings

end Number

theorem Whitespace.tame_step (settings : Settings H) : (Whitespace.step settings).Tame := by
  intro branch item sound unfinished yielded
  rw [step] at yielded
  split at yielded
  · exact absurd yielded Action.not_yields_empty
  · rename_i nonempty
    obtain ⟨next, rest, added, spells⟩ := Branch.spells_prefix sound unfinished
      (List.takeWhile_prefix Text.isBlank) nonempty settings.marker
    rw [added] at yielded
    exact Settings.leads_yieldExtended (.grown spells.grown) yielded

namespace Freetext

variable {freetext : Freetext H} {settings : Settings H} {branch : Branch H}

/-- A copy of a branch with a capture and what the capture costs. -/
def captured (marker : Option Marker) (copy : Branch H) (capture : Text) : Item H := do
  let added ← copy.add { content := capture, kind := .input, marker }
  added.addScore (Score.penalty Score.wordRate (penalised capture))

theorem yields_capture {length : Nat} {item : Item H}
    (yielded : (freetext.capture settings branch length).Yields item) :
    ∃ copy, branch.fork.Results copy ∧
      (captured settings.marker copy (branch.input.take length)).Carries item := by
  rw [capture] at yielded
  obtain ⟨accepted, _, rest⟩ := Action.yields_bind yielded
  split at rest
  · obtain ⟨copy, copied, extended⟩ := Action.yields_bind rest
    refine ⟨copy, copied, ?_⟩
    dsimp only at extended
    split at extended
    · rename_i scored made
      obtain ⟨last, emitted, given⟩ := Action.yields_bind extended
      rw [Run.yields_one (Action.yields_pure given)]
      obtain ⟨data, rfl⟩ := Settings.emit_results emitted
      have made : captured settings.marker copy (branch.input.take length) = .ok scored := made
      rw [made]
      exact .ok scored data
    · rename_i cause made
      rw [Run.yields_one (Action.yields_pure extended)]
      have made : captured settings.marker copy (branch.input.take length) = .error cause := made
      rw [made]
      exact .error cause
  · exact absurd rest Action.not_yields_empty

theorem leads_captured {capture : Text} (sound : branch.Overlaid)
    (unfinished : branch.isFinished = false) (lead : capture <+: branch.input)
    (nonempty : capture ≠ []) (marker : Option Marker) :
    branch.Leads (captured marker branch capture) := by
  obtain ⟨next, behind, added, spells⟩ :=
    Branch.spells_prefix sound unfinished lead nonempty marker
  rw [captured, added]
  cases scored : next.addScore (Score.penalty Score.wordRate (penalised capture)) with
  | error cause =>
      simp only [bind, Except.bind, scored]
      exact .fails (Branch.addScore_penalty _ (.inr rfl) scored)
  | ok costlier =>
      simp only [bind, Except.bind, scored]
      exact .grown (spells.grown.tail (.scored scored))

theorem leads_capture {length : Nat} {item : Item H} (sound : branch.Overlaid)
    (unfinished : branch.isFinished = false) (nonempty : branch.input.take length ≠ [])
    (yielded : (freetext.capture settings branch length).Yields item) : branch.Leads item := by
  obtain ⟨copy, copied, carries⟩ := yields_capture yielded
  have grown := Branch.Grown.fork copied
  obtain ⟨data, rfl⟩ := Branch.fork_results copied
  have lead : branch.input.take length <+: branch.input := List.take_prefix length branch.input
  have leads := leads_captured (sound.grown grown) unfinished lead nonempty settings.marker
  exact (leads.after grown).carries carries

theorem tame_step (freetext : Freetext H) (settings : Settings H) :
    (freetext.step settings).Tame := by
  intro branch item sound unfinished yielded
  obtain ⟨length, member, captured⟩ := Run.yields_concatMap (Action.yields_pure yielded)
  exact leads_capture sound unfinished (Text.wordEnds_capture member) captured

end Freetext

end Typeahead
