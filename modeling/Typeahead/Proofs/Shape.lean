import Typeahead.Proofs.Tame.Grammar

namespace Typeahead

/-! The shape of what built-in grammars answer.

First comes what was typed, then what is offered, and at most one placeholder at
the end.  Each step by which branches grow keeps this order. -/

variable {H : Host}

namespace Part

/-- What was left out stands right before something typed. -/
def Followed (parts : List Part) : Prop :=
  ∀ front left behind, parts = front ++ left :: behind → left.kind = .fuzzy →
    ∃ next rest, behind = next :: rest ∧ next.kind = .input

theorem Followed.append {first second : List Part} (before : Followed first)
    (after : Followed second) : Followed (first ++ second) := by
  intro front left behind split fuzzy
  rcases List.append_eq_append_iff.mp split with ⟨more, _, inSecond⟩ | ⟨more, inFirst, across⟩
  · exact after more left behind inSecond fuzzy
  · cases more with
    | nil => exact after [] left behind across.symm fuzzy
    | cons _ more =>
        obtain ⟨rfl, rfl⟩ := List.cons.inj across
        obtain ⟨next, rest, rfl, input⟩ := before front left more inFirst fuzzy
        exact ⟨next, rest ++ second, rfl, input⟩

theorem followed_of_forall {parts : List Part} (plain : ∀ part ∈ parts, part.kind ≠ .fuzzy) :
    Followed parts := by
  intro front left behind split fuzzy
  exact absurd fuzzy (plain left (by simp [split]))

theorem followed_skipped {fuzzy part : Part} (kind : part.kind = .input) :
    Followed [fuzzy, part] := by
  intro front left behind split left_fuzzy
  cases front with
  | nil =>
      obtain ⟨rfl, rfl⟩ := List.cons.inj split
      exact ⟨part, [], rfl, kind⟩
  | cons _ front =>
      have alone : [part] = front ++ left :: behind := (List.cons.inj split).2
      have plain : ∀ other ∈ [part], other.kind ≠ .fuzzy := by simp [kind]
      exact followed_of_forall plain front left behind alone left_fuzzy

/-- Typed parts, then offered ones, then at most one that is held open. -/
structure Shape (parts typed offered held : List Part) : Prop where
  split : parts = typed ++ offered ++ held
  typedKinds : ∀ part ∈ typed, part.kind = .input ∨ part.kind = .fuzzy
  offeredKinds : ∀ part ∈ offered, part.kind = .suggestion ∨ part.kind = .whitespace
  heldKinds : ∀ part ∈ held, part.kind = .placeholder
  single : held.length ≤ 1
  followed : Followed parts

namespace Shape

variable {parts typed offered held added : List Part} {part : Part}

theorem typeMore (shape : Shape parts typed [] [])
    (kinds : ∀ part ∈ added, part.kind = .input ∨ part.kind = .fuzzy) (followed : Followed added) :
    Shape (parts ++ added) (typed ++ added) [] [] where
  split := by simp [shape.split]
  typedKinds other member := (List.mem_append.mp member).elim (shape.typedKinds other) (kinds other)
  offeredKinds := by simp
  heldKinds := by simp
  single := by simp
  followed := shape.followed.append followed

theorem offerMore (shape : Shape parts typed offered [])
    (kind : part.kind = .suggestion ∨ part.kind = .whitespace) :
    Shape (parts ++ [part]) typed (offered ++ [part]) [] where
  split := by simp [shape.split]
  typedKinds := shape.typedKinds
  offeredKinds other member := by
    rcases List.mem_append.mp member with old | new
    · exact shape.offeredKinds other old
    · rw [List.mem_singleton.mp new]
      exact kind
  heldKinds := by simp
  single := by simp
  followed := by
    refine shape.followed.append (followed_of_forall ?_)
    rcases kind with kind | kind <;> simp [kind]

theorem holdOpen (shape : Shape parts typed offered []) (kind : part.kind = .placeholder) :
    Shape (parts ++ [part]) typed offered [part] where
  split := by simp [shape.split]
  typedKinds := shape.typedKinds
  offeredKinds := shape.offeredKinds
  heldKinds := by simp [kind]
  single := by simp
  followed := shape.followed.append (followed_of_forall (by simp [kind]))

theorem takeWhile_isLine (shape : Shape parts typed offered held) :
    parts.takeWhile (·.isLine) = typed ++ offered := by
  have line : ∀ part ∈ typed ++ offered, part.isLine = true := by
    intro part member
    rcases List.mem_append.mp member with inTyped | inOffered
    · rcases shape.typedKinds part inTyped with kind | kind <;> simp [isLine, kind]
    · rcases shape.offeredKinds part inOffered with kind | kind <;> simp [isLine, kind]
  rw [shape.split, List.takeWhile_append_of_pos line]
  cases open_ : held with
  | nil => simp
  | cons part rest =>
      have kind := shape.heldKinds part (by simp [open_])
      simp [isLine, kind]

theorem contents_eq (shape : Shape parts typed offered held) :
    contents parts = contents (parts.takeWhile (·.isLine)) ++ contents held := by
  rw [shape.takeWhile_isLine, ← contents_append, ← shape.split]

theorem untyped_iff (shape : Shape parts typed offered held) :
    (∃ part ∈ parts, part.kind = .suggestion ∨ part.kind = .whitespace ∨
      part.kind = .placeholder) ↔ offered ++ held ≠ [] := by
  constructor
  · rintro ⟨part, member, kind⟩ nothing
    obtain ⟨rfl, rfl⟩ := List.append_eq_nil_iff.mp nothing
    have inTyped : part ∈ typed := by simpa [shape.split] using member
    rcases shape.typedKinds part inTyped with other | other <;> simp [other] at kind
  · intro something
    obtain ⟨part, member⟩ := List.exists_mem_of_ne_nil _ something
    have among : part ∈ parts := by
      rw [shape.split, List.append_assoc]
      exact List.mem_append_right typed member
    refine ⟨part, among, ?_⟩
    rcases List.mem_append.mp member with inOffered | inHeld
    · exact (shape.offeredKinds part inOffered).imp_right .inl
    · exact .inr (.inr (shape.heldKinds part inHeld))

end Shape

end Part

namespace Branch

variable {branch next : Branch H}

/-- What a branch that built-in parsers made always is. -/
structure Settled (branch : Branch H) : Prop where
  shaped : ∃ typed offered held, Part.Shape branch.parts typed offered held ∧
    (offered ++ held ≠ [] → branch.input = [])
  finished : branch.isFinished = true → branch.input = []

theorem held_eq_nil {typed offered held : List Part} (unfinished : branch.isFinished = false)
    (shape : Part.Shape branch.parts typed offered held) : held = [] := by
  cases held with
  | nil => rfl
  | cons part rest =>
      have member : part ∈ branch.parts := by simp [shape.split]
      have found : branch.hasKind .placeholder = true :=
        List.any_eq_true.mpr ⟨part, member, by simp [shape.heldKinds part List.mem_cons_self]⟩
      simp [isFinished, found] at unfinished

theorem add_input {part : Part} (kind : part.kind = .input) (added : branch.add part = .ok next) :
    branch.input ≠ [] ∧ next.parts = branch.parts ++ [part] ∧
      next.isFinished = branch.isFinished := by
  cases add_eq_ok_iff.mp added with
  | beside nonempty other => simp [kind] at other
  | @covering spelled rest nonempty _ split alike =>
      refine ⟨?_, rfl, ?_⟩
      · intro used
        rw [used] at split
        have silent := (List.append_eq_nil_iff.mp split.symm).1
        exact nonempty (alike.eq_nil_iff.mp silent)
      · rw [withPart_isFinished, kind]
        exact Bool.or_false _
  | behind nonempty other used => simp [kind] at other

theorem add_untyped {part : Part}
    (kind : part.kind = .suggestion ∨ part.kind = .whitespace ∨ part.kind = .placeholder)
    (used : branch.input = []) (added : branch.add part = .ok next) :
    next.input = [] ∧ next.parts = branch.parts ++ [part] := by
  cases add_eq_ok_iff.mp added with
  | beside nonempty other => rcases kind with kind | kind | kind <;> simp [kind] at other
  | @covering spelled rest nonempty _ split alike =>
      rw [used] at split
      have silent := (List.append_eq_nil_iff.mp split.symm).1
      exact absurd (alike.eq_nil_iff.mp silent) nonempty
  | behind nonempty other used =>
      obtain ⟨pastEnd, same⟩ := branch.leaveInput_eq part.content
      exact ⟨leaveInput_input part.content used, by rw [same]; rfl⟩

namespace Settled

theorem root {given : Text} {holder : Holder H}
    (rooted : (Branch.root given holder).Results branch) : branch.Settled := by
  obtain ⟨data, rfl⟩ := root_results rooted
  constructor
  · refine ⟨[], [], [], ⟨rfl, by simp, by simp, by simp, by simp, ?_⟩, by simp⟩
    exact Part.followed_of_forall (by simp)
  · intro finished
    simp [isFinished, hasKind] at finished

theorem congr (settled : branch.Settled) (parts : next.parts = branch.parts)
    (input : next.input = branch.input) (marked : next.marked = branch.marked) :
    next.Settled := by
  constructor
  · rw [parts, input]
    exact settled.shaped
  · have same : next.isFinished = branch.isFinished := by simp [isFinished, hasKind, parts, marked]
    rw [same, input]
    exact settled.finished

theorem typeMore {added : List Part} (settled : branch.Settled) (left : branch.input ≠ [])
    (parts : next.parts = branch.parts ++ added)
    (kinds : ∀ part ∈ added, part.kind = .input ∨ part.kind = .fuzzy)
    (followed : Part.Followed added) (finished : next.isFinished = branch.isFinished) :
    next.Settled := by
  obtain ⟨typed, offered, held, shape, used⟩ := settled.shaped
  have nothing : offered ++ held = [] := by
    by_contra something
    exact left (used something)
  obtain ⟨rfl, rfl⟩ := List.append_eq_nil_iff.mp nothing
  constructor
  · rw [parts]
    exact ⟨_, [], [], shape.typeMore kinds followed, by simp⟩
  · intro isFinished
    rw [finished] at isFinished
    exact absurd (settled.finished isFinished) left

theorem grows (settled : branch.Settled) (grows : branch.Grows next) : next.Settled := by
  cases grows with
  | carried data lineage stack => exact settled.congr rfl rfl rfl
  | scored added =>
      rw [addScore_eq_ok added]
      exact settled.congr rfl rfl rfl
  | @typed _ part kind added =>
      obtain ⟨left, parts, finished⟩ := add_input kind added
      exact settled.typeMore left parts (by simp [kind]) (Part.followed_of_forall (by simp [kind]))
        finished
  | @skipped between _ fuzzy part omitted before kind added =>
      cases add_eq_ok_iff.mp before with
      | covering nonempty other => simp [omitted] at other
      | behind nonempty other => simp [omitted] at other
      | beside nonempty _ =>
          obtain ⟨left, parts, finished⟩ := add_input kind added
          have parts' : next.parts = branch.parts ++ [fuzzy, part] := by
            rw [parts, withPart_parts, List.append_assoc]
            rfl
          have finished' : next.isFinished = branch.isFinished := by
            rw [finished, withPart_isFinished, omitted]
            exact Bool.or_false _
          exact settled.typeMore left parts' (by simp [kind, omitted])
            (Part.followed_skipped kind) finished'
  | @offered _ part unfinished kind used added =>
      have untyped : part.kind = .suggestion ∨ part.kind = .whitespace ∨
          part.kind = .placeholder := kind.imp_right .inl
      obtain ⟨used', parts⟩ := add_untyped untyped used added
      obtain ⟨typed, offered, held, shape, _⟩ := settled.shaped
      have nothing := held_eq_nil unfinished shape
      subst nothing
      refine ⟨⟨typed, offered ++ [part], [], ?_, fun _ => used'⟩, fun _ => used'⟩
      rw [parts]
      exact shape.offerMore kind
  | @heldOpen shown part unfinished kind added =>
      have used : branch.input = [] := by
        cases add_eq_ok_iff.mp added with
        | beside nonempty other => simp [kind] at other
        | covering nonempty other => simp [kind] at other
        | behind nonempty other used => exact used
      obtain ⟨used', parts⟩ := add_untyped (by simp [kind]) used added
      obtain ⟨typed, offered, held, shape, _⟩ := settled.shaped
      have nothing := held_eq_nil unfinished shape
      subst nothing
      refine ⟨⟨typed, offered, [part], ?_, fun _ => used'⟩, fun _ => used'⟩
      change Part.Shape shown.parts typed offered [part]
      rw [parts]
      exact shape.holdOpen kind
  | finished used => exact ⟨settled.shaped, fun _ => used⟩

theorem grown (settled : branch.Settled) (grown : branch.Grown next) : next.Settled := by
  induction grown with
  | refl => exact settled
  | tail _ step ih => exact ih.grows step

end Settled

end Branch

namespace Grammar

variable {rule : Rule H} {parser : Parser H} {holder : Holder H} {input : Text}
  {options : ParseOptions}

theorem result_of_leads {root : Branch H} {item : Item H} {result : ParseResult H}
    (leads : root.Leads item) (kept : options.result? item = some (.ok result)) :
    ∃ branch, item = .ok branch ∧ root.Grown branch ∧ result = branch.toResult := by
  cases leads with
  | @grown branch further =>
      simp only [ParseOptions.result?] at kept
      split at kept
      · contradiction
      · cases kept
        exact ⟨branch, rfl, further, rfl⟩
  | fails penalty => simp [ParseOptions.result?] at kept

theorem parse_shape {cursor : Cursor H (Except Error (ParseResult H))} {result : ParseResult H}
    (builtIn : rule.BuiltIn) (built : rule.build = .ok parser)
    (begun : (Grammar.parse { parser, holder } input options).Results cursor)
    (yielded : cursor.Yields (.ok result)) :
    ∃ root branch typed offered held, (Branch.root input holder).Results root ∧
      (parser.start root).Yields (.ok branch) ∧ result = branch.toResult ∧
      Part.Shape result.parts typed offered held ∧
      ((∃ part ∈ result.parts, part.kind = .suggestion ∨ part.kind = .whitespace ∨
        part.kind = .placeholder) ∨ branch.isFinished = true → result.input = []) ∧
      result.text = result.line ++ Part.contents held := by
  obtain ⟨root, item, rooted, found, kept, leads⟩ := leads_parse builtIn built begun yielded
  obtain ⟨branch, rfl, grown, rfl⟩ := result_of_leads leads kept
  have settled := (Branch.Settled.root rooted).grown grown
  obtain ⟨typed, offered, held, shape, used⟩ := settled.shaped
  refine ⟨root, branch, typed, offered, held, rooted, found, rfl, shape, ?_, shape.contents_eq⟩
  intro stopped
  rcases stopped with untyped | finished
  · exact used (shape.untyped_iff.mp untyped)
  · exact settled.finished finished

theorem parse_shape_stroll : ∃ parser cursor result,
    stroll.build = .ok parser ∧
    (Grammar.parse { parser, holder := .plain () } ['g', 'o', ' ', 'h'] {}).Results cursor ∧
    cursor.Yields (.ok result) ∧
    result.parts.map (·.kind) = [.input, .input, .input, .suggestion, .suggestion] ∧
    ∃ root branch typed offered held,
      (Branch.root ['g', 'o', ' ', 'h'] (Holder.plain ())).Results root ∧
      (parser.start root).Yields (.ok branch) ∧ result = branch.toResult ∧
      Part.Shape result.parts typed offered held ∧
      ((∃ part ∈ result.parts, part.kind = .suggestion ∨ part.kind = .whitespace ∨
        part.kind = .placeholder) ∨ branch.isFinished = true → result.input = []) ∧
      result.text = result.line ++ Part.contents held := by
  obtain ⟨parser, built⟩ : ∃ parser, stroll.build = .ok parser := ⟨_, rfl⟩
  have answers : stroll.build.toOption.all (fun parser =>
      (((Grammar.parse { parser, holder := .plain () } ['g', 'o', ' ', 'h'] {}) ()).result.next
        ()).result.1.any fun
          | .ok result => result.parts.map (·.kind) =
              [.input, .input, .input, .suggestion, .suggestion]
          | .error _ => false) = true := by decide +kernel
  rw [built] at answers
  obtain ⟨answer, answered, kinds⟩ := (Option.any_eq_true _ _).mp answers
  cases answer with
  | error cause => contradiction
  | ok result =>
      have yielded := Cursor.yields_next answered
      exact ⟨parser, _, result, built, ⟨(), rfl⟩, yielded, of_decide_eq_true kinds,
        parse_shape stroll_builtIn built ⟨(), rfl⟩ yielded⟩

end Grammar

end Typeahead
