import Typeahead.Proofs.Run.Gives

namespace Typeahead

/-! A cursor that is pulled any number of times.

The answers are the items of the run, one by one, and then nothing for ever, whatever
world each pull finds.  Behind the end, and behind the last item of a capped run, a
pull has no effect: the run is not asked again. -/

variable {H : Host} {α : Type}

namespace Run

theorem toList_capped (counts : α → Bool) (cap : Nat) (run : Run H α) (world : H.World) :
    ((run.capped counts cap).toList world).result =
      upTo counts cap (run.toList world).result := by
  induction run using induct generalizing cap world with
  | step run ih =>
      rw [toList_apply, toList_apply run]
      cases cap with
      | zero =>
          rw [pull_capped_zero, upTo]
          rfl
      | succ cap =>
          rw [pull_capped_succ]
          cases pulled : run.pull world with
          | ended emitted left => rfl
          | item head emitted left rest =>
              have shorter := ih world rest (by simp [pulled, Pull.rest?])
                (if counts head then cap else cap + 1) left
              simp [Pull.cappedMore, Pull.toList, upTo, shorter]

/-- Results are collected when there is nothing else. -/
theorem collect_eq_ok {ε : Type} {run : Run H (Except ε α)} {world : H.World}
    {results : List α} (given : (run.toList world).result = results.map .ok) :
    (run.collect world).result = .ok results := by
  induction run using induct generalizing world results with
  | step run ih =>
      rw [toList_apply] at given
      rw [collect_apply]
      cases pulled : run.pull world with
      | ended emitted left =>
          rw [pulled] at given
          rw [List.map_eq_nil_iff.mp given.symm]
          rfl
      | item head emitted left rest =>
          rw [pulled] at given
          cases results with
          | nil => contradiction
          | cons result results =>
              obtain ⟨rfl, others⟩ := List.cons.inj given
              have collected := ih world rest (by simp [pulled, Pull.rest?]) others
              simp [Pull.collect, collected, Except.map]

/-- An error is answered in place of the results in front of it. -/
theorem collect_eq_error {ε : Type} {run : Run H (Except ε α)} {world : H.World}
    {front : List α} {cause : ε} {behind : List (Except ε α)}
    (given : (run.toList world).result = front.map .ok ++ .error cause :: behind) :
    (run.collect world).result = .error cause := by
  induction run using induct generalizing world front with
  | step run ih =>
      rw [toList_apply] at given
      rw [collect_apply]
      cases pulled : run.pull world with
      | ended emitted left =>
          rw [pulled] at given
          cases front <;> contradiction
      | item head emitted left rest =>
          rw [pulled] at given
          cases front with
          | nil =>
              obtain ⟨rfl, _⟩ := List.cons.inj given
              rfl
          | cons result front =>
              obtain ⟨rfl, others⟩ := List.cons.inj given
              have failed := ih world rest (by simp [pulled, Pull.rest?]) others
              simp [Pull.collect, failed, Except.map]

end Run

namespace Cursor

/-- The cursor behind the end of its run. -/
def exhausted : Cursor H α := ⟨none⟩

/-- The answers of one pull in each of the worlds, and the cursor that is left. -/
def pullIn (cursor : Cursor H α) : List H.World → List (Option α) × Cursor H α
  | [] => ([], cursor)
  | world :: later =>
      let pulled := (cursor.next world).result
      let others := pulled.2.pullIn later
      (pulled.1 :: others.1, others.2)

/-- The answers of so many pulls in a row. -/
def pulls : Nat → Cursor H α → Action H (List (Option α))
  | 0, _ => return []
  | count + 1, cursor => do
      let (answer, rest) ← cursor.next
      return answer :: (← pulls count rest)

theorem next_exhausted (world : H.World) :
    (exhausted : Cursor H α).next world = ⟨(none, exhausted), [], world⟩ := rfl

theorem pullIn_exhausted (worlds : List H.World) :
    (exhausted : Cursor H α).pullIn worlds = (worlds.map fun _ => none, exhausted) := by
  induction worlds with
  | nil => rfl
  | cons world later ih => simp [pullIn, next_exhausted, ih]

theorem next_ofRun_ended {run : Run H α} {world left : H.World} {emitted : List H.Value}
    (pulled : run.pull world = .ended emitted left) :
    (ofRun run).next world = ⟨(none, exhausted), emitted, left⟩ := by
  simp [next, ofRun, pulled, exhausted]

theorem next_ofRun_item {run rest : Run H α} {world left : H.World} {emitted : List H.Value}
    {head : α} (pulled : run.pull world = .item head emitted left rest) :
    (ofRun run).next world = ⟨(some head, ofRun rest), emitted, left⟩ := by
  simp [next, ofRun, pulled]

theorem pulls_exhausted (count : Nat) (world : H.World) :
    (pulls count (exhausted : Cursor H α) world).result = List.replicate count none := by
  induction count generalizing world with
  | zero => rfl
  | succ count ih => simp [pulls, Action.bind_def, Action.map_def, next_exhausted, ih,
      List.replicate_succ]

theorem pulls_ofRun (count : Nat) (run : Run H α) (world : H.World) :
    (pulls count (ofRun run) world).result =
      (List.range count).map ((run.toList world).result[·]?) := by
  induction count generalizing run world with
  | zero => rfl
  | succ count ih =>
      rw [Run.toList_apply]
      cases pulled : run.pull world with
      | ended emitted left =>
          simp [pulls, Action.bind_def, Action.map_def, next_ofRun_ended pulled, pulls_exhausted,
            Pull.toList, List.map_const', List.replicate_succ]
      | item head emitted left rest =>
          simp [pulls, Action.bind_def, Action.map_def, next_ofRun_item pulled, ih, Pull.toList,
            List.range_succ_eq_map, Function.comp_def]

/-- The answers are the items of the run in order, and then nothing.  What is left of
the run could be pulled on from any world. -/
theorem pullIn_ofRun (run : Run H α) (worlds : List H.World) (final : H.World) :
    ∃ items, run.Gives items ∧
      ((ofRun run).pullIn worlds).1 = (List.range worlds.length).map (items[·]?) := by
  induction worlds generalizing run with
  | nil => exact ⟨_, run.gives_toList final, rfl⟩
  | cons world later ih =>
      cases pulled : run.pull world with
      | ended emitted left =>
          refine ⟨[], Run.gives_of_ended pulled, ?_⟩
          simp [pullIn, next_ofRun_ended pulled, pullIn_exhausted, List.map_const',
            List.replicate_succ]
      | item head emitted left rest =>
          obtain ⟨items, others, answers⟩ := ih rest
          refine ⟨head :: items, Run.gives_of_item pulled others, ?_⟩
          simp [pullIn, next_ofRun_item pulled, answers, List.range_succ_eq_map,
            Function.comp_def]

theorem exhausted_of_none {run : Run H α} {worlds : List H.World}
    (answered : none ∈ ((ofRun run).pullIn worlds).1) :
    ((ofRun run).pullIn worlds).2 = exhausted := by
  induction worlds generalizing run with
  | nil => contradiction
  | cons world later ih =>
      cases pulled : run.pull world with
      | ended emitted left => simp [pullIn, next_ofRun_ended pulled, pullIn_exhausted]
      | item head emitted left rest =>
          simp only [pullIn, next_ofRun_item pulled, List.mem_cons, reduceCtorEq, false_or]
            at answered ⊢
          exact ih answered

/-- A capped run is not asked again when as many items as are allowed have come. -/
theorem next_of_capped {counts : α → Bool} {cap : Nat} {run : Run H α} {worlds : List H.World}
    (full : ((ofRun (run.capped counts cap)).pullIn worlds).1.countP (·.any counts) = cap)
    (world : H.World) :
    ((ofRun (run.capped counts cap)).pullIn worlds).2.next world =
      ⟨(none, exhausted), [], world⟩ := by
  induction worlds generalizing run cap with
  | nil =>
      have nothing : cap = 0 := full.symm
      rw [nothing]
      exact next_ofRun_ended (run.pull_capped_zero counts world)
  | cons first later ih =>
      cases cap with
      | zero =>
          have ended := next_ofRun_ended (run.pull_capped_zero counts first)
          simp [pullIn, ended, pullIn_exhausted, next_exhausted]
      | succ cap =>
          have capped := run.pull_capped_succ counts cap first
          cases pulled : run.pull first with
          | ended emitted left =>
              rw [pulled] at capped
              simp [pullIn, next_ofRun_ended capped, pullIn_exhausted, next_exhausted]
          | item head emitted left rest =>
              rw [pulled] at capped
              simp only [pullIn, next_ofRun_item capped] at full ⊢
              refine ih ?_
              by_cases counted : counts head = true
              · simpa [counted] using full
              · simpa [counted] using full

end Cursor

end Typeahead
