import Mathlib.Logic.Relation
import Typeahead.Branch.FixedText
import Typeahead.Proofs.Branch.Overlay

namespace Typeahead

/-! How branches grow.

`Grows` lists what a built-in parser ever does to a branch.  What each of these
steps keeps is kept by every parser, however parsers are nested. -/

variable {H : Host}

/-- The one failure that is left open: a penalty that is no score factor. -/
inductive Error.IsPenalty : Error → Prop
  | outside (stack : List String) {rate : Float}
      (known : rate = Score.skippedRate ∨ rate = Score.wordRate) (count : Nat)
      (refused : Score.inRange (Score.penalty rate count) = false) :
      IsPenalty (.violated stack (.scoreOutOfRange (Score.penalty rate count)))

namespace Branch

inductive Grows (branch : Branch H) : Branch H → Prop
  /-- Copies, new data, parsers entered and left. -/
  | carried (data : H.Data) (lineage : Nat) (stack : List String) :
      Grows branch { branch with data, lineage, stack }
  | scored {next : Branch H} {factor : Float} (added : branch.addScore factor = .ok next) :
      Grows branch next
  | typed {next : Branch H} {part : Part} (kind : part.kind = .input)
      (added : branch.add part = .ok next) : Grows branch next
  /-- Left-out characters are added together with the typed text behind them. -/
  | skipped {between next : Branch H} {fuzzy part : Part} (left : fuzzy.kind = .fuzzy)
      (before : branch.add fuzzy = .ok between) (kind : part.kind = .input)
      (added : between.add part = .ok next) : Grows branch next
  | offered {next : Branch H} {part : Part} (unfinished : branch.isFinished = false)
      (kind : part.kind = .suggestion ∨ part.kind = .whitespace) (used : branch.input = [])
      (added : branch.add part = .ok next) : Grows branch next
  | heldOpen {shown : Branch H} {part : Part} (unfinished : branch.isFinished = false)
      (kind : part.kind = .placeholder) (added : branch.add part = .ok shown) :
      Grows branch shown.finish
  | finished (used : branch.input = []) : Grows branch branch.finish

abbrev Grown : Branch H → Branch H → Prop := Relation.ReflTransGen Grows

variable {branch next : Branch H}

theorem Overlaid.grows (sound : branch.Overlaid) (grows : branch.Grows next) :
    next.Overlaid := by
  cases grows with
  | carried data lineage stack => exact sound.congr rfl rfl rfl rfl
  | scored added => exact sound.addScore added
  | typed kind added => exact sound.add added
  | skipped left before kind added => exact (sound.add before).add added
  | offered unfinished kind used added => exact sound.add added
  | heldOpen unfinished kind added => exact (sound.add added).congr rfl rfl rfl rfl
  | finished used => exact sound.congr rfl rfl rfl rfl

theorem Overlaid.grown (sound : branch.Overlaid) (grown : branch.Grown next) :
    next.Overlaid := by
  induction grown with
  | refl => exact sound
  | tail _ step ih => exact ih.grows step

namespace Grown

theorem withData (branch : Branch H) (data : H.Data) : branch.Grown { branch with data } :=
  .single (.carried data branch.lineage branch.stack)

theorem pushStack (branch : Branch H) (name : String) : branch.Grown (branch.pushStack name) :=
  .single (.carried branch.data branch.lineage _)

theorem popStack (branch : Branch H) : branch.Grown branch.popStack :=
  .single (.carried branch.data branch.lineage _)

theorem fork {copy : Branch H} (copied : branch.fork.Results copy) : branch.Grown copy := by
  obtain ⟨data, rfl⟩ := fork_results copied
  exact .single (.carried data _ branch.stack)

end Grown

/-- What a built-in parser may make of a branch: a branch grown from it, or a penalty
that is refused. -/
inductive Leads (branch : Branch H) : Except Error (Branch H) → Prop
  | grown {next : Branch H} (further : branch.Grown next) : Leads branch (.ok next)
  | fails {cause : Error} (penalty : cause.IsPenalty) : Leads branch (.error cause)

theorem Leads.after {item : Except Error (Branch H)} (leads : next.Leads item)
    (grown : branch.Grown next) : branch.Leads item := by
  cases leads with
  | grown further => exact .grown (grown.trans further)
  | fails penalty => exact .fails penalty

theorem addScore_penalty {rate : Float} {cause : Error} (count : Nat)
    (known : rate = Score.skippedRate ∨ rate = Score.wordRate)
    (failed : branch.addScore (Score.penalty rate count) = .error cause) : cause.IsPenalty := by
  rw [addScore_eq] at failed
  split at failed
  · contradiction
  · rename_i refused
    cases failed
    exact .outside branch.stack known count (by simpa using refused)

theorem noSuggestion (sound : branch.Overlaid) (left : branch.input ≠ []) :
    branch.hasKind .suggestion = false := by
  by_contra found
  exact left (sound.suggested (by simpa using found))

theorem add_typed {content spelled rest : Text} (sound : branch.Overlaid)
    (nonempty : content ≠ []) (split : branch.input = spelled ++ rest)
    (alike : Text.Alike false spelled content) (marker : Option Marker) :
    ∃ next, branch.add { content, kind := .input, marker } = .ok next ∧ next.input = rest ∧
      next = withPart { branch with consumed := branch.consumed + spelled.byteSize }
        { content, kind := .input, marker } := by
  have nonempty' : spelled ≠ [] := fun empty => nonempty (alike.eq_nil_iff.mp empty)
  have left : branch.input ≠ [] := by simp [split, nonempty']
  have allowed := noSuggestion sound left
  exact ⟨_, add_eq_ok_iff.mpr (.covering nonempty (.inl ⟨rfl, allowed⟩) split alike),
    (consumed_input nonempty' split).1, rfl⟩

theorem add_behind {part : Part} (nonempty : part.content ≠ [] ∨ part.kind = .placeholder)
    (kind : part.kind = .whitespace ∨ part.kind = .suggestion ∨ part.kind = .placeholder)
    (used : branch.input = []) :
    branch.add part = .ok ((branch.leaveInput part.content).withPart part) :=
  add_eq_ok_iff.mpr (.behind nonempty kind used)

end Branch

end Typeahead
