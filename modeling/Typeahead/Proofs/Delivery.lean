import Typeahead.Matcher.Definition
import Typeahead.Proofs.Parser
import Typeahead.Proofs.Run.Traces

namespace Typeahead

/-! What a definition makes of the run that it encloses.

The items of the enclosed run come one by one, each with the values that were
emitted for it, and the handler of the definition changes their data. -/

variable {H : Host}

namespace Defined

variable {defined : Defined H} {settings : Settings H} {branch : Branch H}

/-- Handing values to the handler of a definition changes nothing but data. -/
theorem deliver_results {values : List H.Value} {item delivered : Item H}
    (answered : (deliver settings (item, values)).Results delivered) : item.Carries delivered := by
  cases item with
  | error cause => exact Action.results_pure answered ▸ .error cause
  | ok branch =>
      obtain ⟨last, folded, made⟩ := Action.results_bind answered
      rw [Action.results_pure made]
      suffices ∃ data, last = { branch with data } by
        obtain ⟨data, rfl⟩ := this
        exact .ok branch data
      clear made answered
      induction values generalizing branch with
      | nil => exact ⟨branch.data, Action.results_pure folded⟩
      | cons value values ih =>
          rw [List.foldlM_cons] at folded
          obtain ⟨middle, emitted, rest⟩ := Action.results_bind folded
          obtain ⟨data, rfl⟩ := Settings.emit_results emitted
          exact ih { branch with data } rest

/-- A definition hands out what was emitted since it was begun. -/
theorem gives_step {items : List (Item H)} (gives : (defined.step settings branch).Gives items) :
    ∃ trace, (defined.startOn branch).Traces trace ∧
      List.Forall₂ (fun pair item => (deliver settings pair).Results item)
        (Trace.handed takesValues [] trace.items) items := by
  obtain ⟨⟨run, waiting⟩, ⟨world, collected⟩, given⟩ := Action.gives_bind gives
  obtain ⟨pairs, pairsGiven, delivered⟩ := Run.gives_mapAction (Action.gives_pure given)
  obtain ⟨trace, traced, rfl⟩ := Run.gives_collecting pairsGiven
  cases collected
  exact ⟨_, ⟨world, trace, traced, rfl⟩, by rwa [Trace.handed_after]⟩

end Defined

end Typeahead
