import Typeahead.Proofs.Branch.Adding

namespace Typeahead

/-! Ways of continuing a branch, and how they compose.

A stage relates a branch to the branches that it may become, in order.  Stages one after
the other are associative; stages beside each other are, too, and what follows them all
may as well follow each.  A branch that is finished stays as it is. -/

abbrev Stage (H : Host) := Branch H → List (Branch H) → Prop

variable {H : Host}

namespace Stage

/-- The stage on every branch, one branch after the other. -/
def Each (stage : Stage H) : List (Branch H) → List (Branch H) → Prop
  | [], left => left = []
  | branch :: others, left =>
      ∃ here more, stage branch here ∧ Each stage others more ∧ left = here ++ more

def pass : Stage H := fun branch left => left = [branch]

def andThen (first second : Stage H) : Stage H := fun branch left =>
  ∃ middle, first branch middle ∧ second.Each middle left

def chain : List (Stage H) → Stage H
  | [] => pass
  | stage :: others => stage.andThen (chain others)

/-- Every stage on the same branch, one stage after the other. -/
def Beside : List (Stage H) → Branch H → List (Branch H) → Prop
  | [], _, left => left = []
  | stage :: others, branch, left =>
      ∃ here more, stage branch here ∧ Beside others branch more ∧ left = here ++ more

/-- The stages beside each other, unless the branch is finished. -/
def choice (stages : List (Stage H)) : Stage H := fun branch left =>
  (branch.isFinished = true → left = [branch]) ∧
    (branch.isFinished = false → Beside stages branch left)

variable {first second third stage : Stage H} {stages others : List (Stage H)}
  {branch : Branch H} {front back live left : List (Branch H)}

/-! ### One after the other -/

theorem each_append :
    stage.Each (front ++ back) left ↔
      ∃ here more, stage.Each front here ∧ stage.Each back more ∧ left = here ++ more := by
  induction front generalizing left with
  | nil =>
      constructor
      · intro behind
        exact ⟨[], left, rfl, behind, rfl⟩
      · rintro ⟨_, more, rfl, behind, rfl⟩
        exact behind
  | cons branch front ih =>
      constructor
      · rintro ⟨here, _, first, rest, rfl⟩
        obtain ⟨others, more, inFront, behind, rfl⟩ := ih.mp rest
        exact ⟨here ++ others, more, ⟨here, others, first, inFront, rfl⟩, behind,
          (List.append_assoc _ _ _).symm⟩
      · rintro ⟨_, more, ⟨here, others, first, inFront, rfl⟩, behind, rfl⟩
        exact ⟨here, others ++ more, first, ih.mpr ⟨others, more, inFront, behind, rfl⟩,
          List.append_assoc _ _ _⟩

theorem each_one : stage.Each [branch] left ↔ stage branch left := by
  constructor
  · rintro ⟨here, _, first, rfl, rfl⟩
    rwa [List.append_nil]
  · intro first
    exact ⟨left, [], first, rfl, (List.append_nil left).symm⟩

theorem each_pass : pass.Each live left ↔ left = live := by
  induction live generalizing left with
  | nil => exact Iff.rfl
  | cons branch others ih =>
      constructor
      · rintro ⟨_, more, rfl, rest, rfl⟩
        rw [ih.mp rest]
        rfl
      · rintro rfl
        exact ⟨[branch], others, rfl, ih.mpr rfl, rfl⟩

theorem each_andThen :
    (first.andThen second).Each live left ↔
      ∃ middle, first.Each live middle ∧ second.Each middle left := by
  induction live generalizing left with
  | nil =>
      constructor
      · rintro rfl
        exact ⟨[], rfl, rfl⟩
      · rintro ⟨_, rfl, rfl⟩
        rfl
  | cons branch others ih =>
      constructor
      · rintro ⟨here, more, ⟨middle, begun, continued⟩, rest, rfl⟩
        obtain ⟨middle', begun', continued'⟩ := ih.mp rest
        exact ⟨middle ++ middle', ⟨middle, middle', begun, begun', rfl⟩,
          each_append.mpr ⟨here, more, continued, continued', rfl⟩⟩
      · rintro ⟨_, ⟨middle, middle', begun, begun', rfl⟩, both⟩
        obtain ⟨here, more, continued, continued', rfl⟩ := each_append.mp both
        exact ⟨here, more, ⟨middle, begun, continued⟩, ih.mpr ⟨middle', begun', continued'⟩, rfl⟩

theorem pass_andThen (stage : Stage H) : pass.andThen stage = stage := by
  funext branch left
  apply propext
  constructor
  · rintro ⟨_, rfl, continued⟩
    exact each_one.mp continued
  · intro continued
    exact ⟨[branch], rfl, each_one.mpr continued⟩

theorem andThen_pass (stage : Stage H) : stage.andThen pass = stage := by
  funext branch left
  apply propext
  constructor
  · rintro ⟨middle, begun, continued⟩
    rwa [each_pass.mp continued]
  · intro begun
    exact ⟨left, begun, each_pass.mpr rfl⟩

theorem andThen_assoc (first second third : Stage H) :
    (first.andThen second).andThen third = first.andThen (second.andThen third) := by
  funext branch left
  apply propext
  constructor
  · rintro ⟨later, ⟨middle, begun, continued⟩, ended⟩
    exact ⟨middle, begun, each_andThen.mpr ⟨later, continued, ended⟩⟩
  · rintro ⟨middle, begun, rest⟩
    obtain ⟨later, continued, ended⟩ := each_andThen.mp rest
    exact ⟨later, ⟨middle, begun, continued⟩, ended⟩

theorem chain_pair (first second : Stage H) : chain [first, second] = first.andThen second := by
  rw [chain, chain, chain, andThen_pass]

theorem chain_append (stages others : List (Stage H)) :
    chain (stages ++ others) = (chain stages).andThen (chain others) := by
  induction stages with
  | nil => exact (pass_andThen _).symm
  | cons stage stages ih => rw [List.cons_append, chain, ih, chain, andThen_assoc]

theorem chain_flatten (front inner back : List (Stage H)) :
    chain (front ++ chain inner :: back) = chain (front ++ inner ++ back) := by
  rw [chain_append, chain, List.append_assoc, chain_append, chain_append]

/-! ### Beside each other -/

theorem beside_append :
    Beside (stages ++ others) branch left ↔
      ∃ here more, Beside stages branch here ∧ Beside others branch more ∧
        left = here ++ more := by
  induction stages generalizing left with
  | nil =>
      constructor
      · intro behind
        exact ⟨[], left, rfl, behind, rfl⟩
      · rintro ⟨_, more, rfl, behind, rfl⟩
        exact behind
  | cons stage stages ih =>
      constructor
      · rintro ⟨here, _, first, rest, rfl⟩
        obtain ⟨between, more, inFront, behind, rfl⟩ := ih.mp rest
        exact ⟨here ++ between, more, ⟨here, between, first, inFront, rfl⟩, behind,
          (List.append_assoc _ _ _).symm⟩
      · rintro ⟨_, more, ⟨here, between, first, inFront, rfl⟩, behind, rfl⟩
        exact ⟨here, between ++ more, first, ih.mpr ⟨between, more, inFront, behind, rfl⟩,
          List.append_assoc _ _ _⟩

theorem beside_choice (unfinished : branch.isFinished = false) :
    Beside (choice stages :: others) branch left ↔ Beside (stages ++ others) branch left := by
  rw [beside_append]
  constructor
  · rintro ⟨here, more, chosen, behind, rfl⟩
    exact ⟨here, more, chosen.2 unfinished, behind, rfl⟩
  · rintro ⟨here, more, inside, behind, rfl⟩
    exact ⟨here, more, ⟨by simp [unfinished], fun _ => inside⟩, behind, rfl⟩

theorem choice_flatten (front inner back : List (Stage H)) :
    choice (front ++ choice inner :: back) = choice (front ++ inner ++ back) := by
  funext branch left
  apply propext
  apply and_congr_right
  intro _
  apply forall_congr'
  intro unfinished
  rw [List.append_assoc, beside_append, beside_append]
  simp only [beside_choice unfinished]

theorem beside_andThen :
    Beside (stages.map (·.andThen stage)) branch left ↔
      ∃ middle, Beside stages branch middle ∧ stage.Each middle left := by
  induction stages generalizing left with
  | nil =>
      constructor
      · rintro rfl
        exact ⟨[], rfl, rfl⟩
      · rintro ⟨_, rfl, rfl⟩
        rfl
  | cons head stages ih =>
      constructor
      · rintro ⟨here, more, ⟨middle, begun, continued⟩, rest, rfl⟩
        obtain ⟨middle', begun', continued'⟩ := ih.mp rest
        exact ⟨middle ++ middle', ⟨middle, middle', begun, begun', rfl⟩,
          each_append.mpr ⟨here, more, continued, continued', rfl⟩⟩
      · rintro ⟨_, ⟨middle, middle', begun, begun', rfl⟩, both⟩
        obtain ⟨here, more, continued, continued', rfl⟩ := each_append.mp both
        exact ⟨here, more, ⟨middle, begun, continued⟩, ih.mpr ⟨middle', begun', continued'⟩, rfl⟩

/-! ### Finished branches -/

/-- Finished branches stay as they are. -/
def Passes (stage : Stage H) : Prop :=
  ∀ branch left, branch.isFinished = true → stage branch left → left = [branch]

theorem choice_passes (stages : List (Stage H)) : (choice stages).Passes :=
  fun _ _ finished chosen => chosen.1 finished

theorem chain_passes (passes : ∀ stage ∈ stages, stage.Passes) : (chain stages).Passes := by
  induction stages with
  | nil => exact fun _ _ _ passed => passed
  | cons stage stages ih =>
      rintro branch left finished ⟨middle, begun, continued⟩
      rw [passes stage List.mem_cons_self branch middle finished begun] at continued
      exact ih (fun other member => passes other (List.mem_cons_of_mem stage member)) branch left
        finished (each_one.mp continued)

/-- What follows all of several stages may as well follow each of them. -/
theorem choice_of_andThen (passes : stage.Passes)
    (continued : (choice stages).andThen stage branch left) :
    choice (stages.map (·.andThen stage)) branch left := by
  obtain ⟨middle, ⟨passed, inside⟩, behind⟩ := continued
  constructor
  · intro finished
    rw [passed finished] at behind
    exact passes branch left finished (each_one.mp behind)
  · intro unfinished
    exact beside_andThen.mpr ⟨middle, inside unfinished, behind⟩

/-! ### Stages that always have an outcome -/

def Total (stage : Stage H) : Prop := ∀ branch, ∃ left, stage branch left

theorem Total.each (total : stage.Total) (live : List (Branch H)) :
    ∃ left, stage.Each live left := by
  induction live with
  | nil => exact ⟨[], rfl⟩
  | cons branch others ih =>
      obtain ⟨here, first⟩ := total branch
      obtain ⟨more, rest⟩ := ih
      exact ⟨here ++ more, here, more, first, rest, rfl⟩

theorem chain_total (total : ∀ stage ∈ stages, stage.Total) : (chain stages).Total := by
  induction stages with
  | nil => exact fun branch => ⟨[branch], rfl⟩
  | cons stage stages ih =>
      intro branch
      obtain ⟨middle, begun⟩ := total stage List.mem_cons_self branch
      obtain ⟨left, continued⟩ :=
        (ih fun other member => total other (List.mem_cons_of_mem stage member)).each middle
      exact ⟨left, middle, begun, continued⟩

theorem beside_total (total : ∀ stage ∈ stages, stage.Total) (branch : Branch H) :
    ∃ left, Beside stages branch left := by
  induction stages with
  | nil => exact ⟨[], rfl⟩
  | cons stage stages ih =>
      obtain ⟨here, first⟩ := total stage List.mem_cons_self branch
      obtain ⟨more, rest⟩ := ih fun other member => total other (List.mem_cons_of_mem stage member)
      exact ⟨here ++ more, here, more, first, rest, rfl⟩

theorem choice_total (total : ∀ stage ∈ stages, stage.Total) : (choice stages).Total := by
  intro branch
  cases finished : branch.isFinished with
  | true => exact ⟨[branch], fun _ => rfl, by simp [finished]⟩
  | false =>
      obtain ⟨left, inside⟩ := beside_total total branch
      exact ⟨left, by simp [finished], fun _ => inside⟩

end Stage

end Typeahead
