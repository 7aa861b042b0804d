import Typeahead.Proofs.Extending.Rule

namespace Typeahead

/-! Words keep their distance.

A word leaves a space behind it, or a branch that nothing follows any more.  Where the text
in front of it does not end with a space, it begins with one, whatever it is made of. -/

variable {H : Host}

theorem Branch.spelled_add {branch next : Branch H} {part : Part}
    (isSpelled : part.isSpelled = true) (added : branch.add part = .ok next) :
    next.spelled = branch.spelled ++ part.content := by
  obtain ⟨consumed, pastEnd, rfl⟩ := add_eq_ok added
  simp only [spelled, Part.spelled_append, Part.spelled_singleton isSpelled]

theorem Text.endsWithSpace_space (text : Text) : (text ++ space).endsWithSpace = true := by
  simp [endsWithSpace, space]

namespace Word

variable {branch next : Branch H} {marker : Option Marker}

/-- Nothing follows the text of the branch without a space between. -/
def Closes (branch : Branch H) : Prop :=
  branch.isFinished = true ∨ branch.spelled.endsWithSpace = true

theorem closes_add {kind : PartKind} (isSpelled : kind ≠ .fuzzy)
    (added : branch.add { content := Text.space, kind, marker } = .ok next) : Closes next := by
  refine .inr ?_
  rw [Branch.spelled_add (by simpa [Part.isSpelled] using isSpelled) added]
  exact Text.endsWithSpace_space _

theorem closes_closed? (closed : closed? marker branch = some (.ok next)) : Closes next := by
  rw [closed?] at closed
  split at closed
  · exact closes_add (by decide) (Option.some.inj closed)
  · split at closed
    · rename_i enough
      cases closed
      rw [Bool.or_eq_true] at enough
      exact enough.symm
    · split at closed
      · contradiction
      · exact closes_add (by decide) (Option.some.inj closed)

/-- The separator, typed or not. -/
structure IsSeparator (marker : Option Marker) (part : Part) : Prop where
  content : part.content = Text.space
  kind : part.kind = .input ∨ part.kind = .whitespace
  marker : part.marker = marker

theorem separator_opened? (hasParts : branch.hasParts = true)
    (unspaced : branch.spelled.endsWithSpace = false)
    (opened : opened? marker branch = some (.ok next)) :
    ∃ separator, IsSeparator marker separator ∧ next.parts = branch.parts ++ [separator] := by
  have separates : ∀ kind, kind = .input ∨ kind = .whitespace →
      branch.add { content := Text.space, kind, marker } = .ok next →
      ∃ separator, IsSeparator marker separator ∧ next.parts = branch.parts ++ [separator] := by
    intro kind known added
    obtain ⟨consumed, pastEnd, rfl⟩ := Branch.add_eq_ok added
    exact ⟨_, ⟨rfl, known, rfl⟩, rfl⟩
  rw [opened?, hasParts, unspaced, if_neg (by decide)] at opened
  split at opened
  · exact separates .input (.inl rfl) (Option.some.inj opened)
  · split at opened
    · contradiction
    · exact separates .whitespace (.inr rfl) (Option.some.inj opened)

/-- The first part that a word adds behind text without a space is a separator. -/
theorem separated_step {settings : Settings H}
    (extending : ∀ child ∈ settings.children, child.Extending)
    (yielded : (step settings branch).Yields (.ok next)) (hasParts : branch.hasParts = true)
    (unspaced : branch.spelled.endsWithSpace = false) :
    ∃ separator others, IsSeparator settings.marker separator ∧
      next.parts = branch.parts ++ separator :: others := by
  obtain ⟨child, among, entered, inner, opened, found, closed⟩ := yields_step yielded
  obtain ⟨separator, separates, parts⟩ := separator_opened? hasParts unspaced opened
  have inside : entered.Extends inner := extending child among entered _ found inner rfl
  have behind : inner.Extends next :=
    holds_closed? (inner.absorbs_extends settings.marker) (.refl inner) closed next rfl
  obtain ⟨others, whole⟩ := (inside.trans behind).parts
  refine ⟨separator, others, separates, ?_⟩
  rw [← whole, parts, List.append_assoc, List.singleton_append]

theorem closes_step {settings : Settings H} (yielded : (step settings branch).Yields (.ok next)) :
    Closes next := by
  obtain ⟨_, _, _, _, _, _, closed⟩ := yields_step yielded
  exact closes_closed? closed

/-- What a word that goes on behind text without a space adds: nothing, its own placeholder,
or a separator and what stands behind it. -/
inductive Spaced (options : RuleOptions H) (branch next : Branch H) : Prop
  | nothing (parts : next.parts = branch.parts)
  | placeholder {text : Text} (own : options.placeholder = some text)
      (parts : next.parts =
        branch.parts ++ [{ content := text, kind := .placeholder, marker := options.marker }])
  | apart {separator : Part} {others : List Part}
      (separates : IsSeparator options.marker separator)
      (parts : next.parts = branch.parts ++ separator :: others)

theorem extending_prepared {word : Word} {settings prepared : Settings H}
    (completed : word.prepare settings = .ok prepared)
    (extending : ∀ child ∈ settings.children, child.Extending) :
    ∀ child ∈ prepared.children, child.Extending := by
  rcases prepare_eq_ok completed with rfl | ⟨text, inner, built, rfl⟩
  · exact extending
  · intro child member
    rw [List.mem_singleton.mp member]
    exact Literal.extending_build built

/-- Every branch that a word yields ends with a space or is finished, and where the text in
front of the word does not end with a space, the word adds a separator before all else. -/
theorem start_spaced {word : Word} {options : RuleOptions H} {children : List (Rule H)}
    {parser : Parser H} (founded : ∀ child ∈ children, child.Founded)
    (enabled : options.enabled (.word word) = true)
    (built : (Rule.node (.word word) options children).build = .ok parser)
    (yielded : (parser.start branch).Yields (.ok next)) :
    (next.isFinished = true ∨ next.spelled.endsWithSpace = true) ∧
      (branch.hasParts = true → branch.spelled.endsWithSpace = false →
        Spaced options branch next) := by
  obtain ⟨parsers, below, made⟩ := Rule.build_eq_ok built
  obtain ⟨prepared, _, completed, rfl⟩ := Matcher.build_eq_ok made
  have extending : ∀ child ∈ prepared.children, child.Extending := by
    apply extending_prepared completed
    intro child member
    obtain ⟨rule, among, childBuilt⟩ := exists_of_mem_forall₂ (Rule.buildAll_eq_ok below) member
    exact (founded rule among).extending childBuilt
  have builtIn : (Kind.word word : Kind H).isBuiltIn = true := rfl
  obtain ⟨inner, rfl⟩ := Kind.prepare_eq_ok builtIn completed
  obtain ⟨items, gives, member⟩ := yielded
  cases Parser.gives_relayed gives with
  | passed off =>
      cases List.mem_singleton.mp member
      exact ⟨.inl (off.resolve_right (by simp [enabled])), fun _ _ => .nothing rfl⟩
  | shown unfinished used placeholder =>
      obtain ⟨finished, parts⟩ := Settings.addPlaceholder_eq_ok (List.mem_singleton.mp member).symm
      exact ⟨.inl finished, fun _ _ => .placeholder placeholder parts⟩
  | finished required used =>
      cases List.mem_singleton.mp member
      exact ⟨.inl rfl, fun _ _ => .nothing rfl⟩
  | matched unfinished found enough =>
      obtain ⟨inside, among, popped⟩ := List.mem_map.mp member
      cases inside with
      | error cause => contradiction
      | ok last =>
          cases popped
          have reached : (step _ (branch.pushStack "word")).Yields (.ok last) :=
            ⟨_, found, among⟩
          have closes : Closes last := closes_step reached
          refine ⟨closes, fun hasParts unspaced => ?_⟩
          obtain ⟨separator, others, separates, parts⟩ :=
            separated_step extending reached hasParts unspaced
          exact .apart separates parts
  | fellBack unfinished used copied placeholder nothing =>
      obtain ⟨finished, parts⟩ := Settings.addPlaceholder_eq_ok (List.mem_singleton.mp member).symm
      obtain ⟨data, rfl⟩ := Branch.fork_results copied
      exact ⟨.inl finished, fun _ _ => .placeholder placeholder parts⟩

/-- A word around a text that may be left out. -/
def aside : Word := {}

def asideChildren : List (Rule Host.quiet) :=
  [.node .optional {} [.node (.literal { text := ['g', 'o'] }) {} []]]

/-- A branch behind a text that does not end with a space. -/
def behindText : Branch Host.quiet where
  given := ['o', 'n', ' ', 'g']
  holder := .plain ()
  data := ()
  parts := [{ content := ['o', 'n'], kind := .input }]
  consumed := 2

theorem start_spaced_aside : ∃ parser next,
    (∀ child ∈ asideChildren, child.Founded) ∧
    (Rule.node (.word aside) {} asideChildren).build = .ok parser ∧
    (parser.start behindText).Yields (.ok next) ∧
    next.parts.map (·.kind) = [.input, .input, .input, .suggestion, .suggestion] ∧
    behindText.hasParts = true ∧ behindText.spelled.endsWithSpace = false ∧
    (next.isFinished = true ∨ next.spelled.endsWithSpace = true) ∧
    Spaced {} behindText next := by
  have founded : ∀ child ∈ asideChildren, child.Founded := by
    intro child member
    rw [List.mem_singleton.mp member]
    refine .builtIn rfl fun inner among => ?_
    rw [List.mem_singleton.mp among]
    exact .builtIn rfl (by simp)
  obtain ⟨parser, built⟩ : ∃ parser,
      (Rule.node (.word aside) {} asideChildren).build = .ok parser := ⟨_, rfl⟩
  have answers : (Rule.node (.word aside) {} asideChildren).build.toOption.all (fun parser =>
      ((parser.start behindText ()).result.toList ()).result.any fun item =>
        item.toOption.any (·.parts.map (·.kind) =
          [.input, .input, .input, .suggestion, .suggestion])) = true := by decide +kernel
  rw [built] at answers
  obtain ⟨item, member, kinds⟩ := List.any_eq_true.mp answers
  cases item with
  | error cause => contradiction
  | ok next =>
      have yielded : (parser.start behindText).Yields (.ok next) :=
        ⟨_, ⟨_, ⟨(), rfl⟩, Run.gives_toList _ ()⟩, member⟩
      obtain ⟨closes, spaced⟩ := start_spaced founded rfl built yielded
      exact ⟨parser, next, founded, built, yielded, of_decide_eq_true kinds, rfl, rfl, closes,
        spaced rfl rfl⟩

end Word

end Typeahead
