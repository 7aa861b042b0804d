import Typeahead.Proofs.Forwarding.Tree
import Typeahead.Proofs.Keeping
import Typeahead.Proofs.Shape

namespace Typeahead

/-! What is noted on a branch.

Where a tree only takes texts as they are, and its texts are noted on the branch on
which they are found, a branch notes the texts of the parts that were typed in full, in
their order, whatever copies of it were made in between. -/

namespace Part

/-- Parts that were typed in full, and what follows them behind the input.  Placeholders
stand among the latter only where they are shown. -/
structure Account (shows : Prop) (parts typed rest : List Part) : Prop where
  split : parts = typed ++ rest
  typedKinds : ∀ part ∈ typed, part.kind = .input
  restKinds : (∀ part ∈ rest, part.kind = .placeholder) ∨ ∃ part ∈ rest, part.kind = .suggestion
  held : ∀ part ∈ rest, part.kind = .placeholder → shows

namespace Account

variable {shows : Prop} {parts typed rest added : List Part} {part : Part}

theorem typeMore (account : Account shows parts typed []) (kind : part.kind = .input) :
    Account shows (parts ++ [part]) (typed ++ [part]) [] where
  split := by simp [account.split]
  typedKinds other member := by
    rcases List.mem_append.mp member with before | last
    · exact account.typedKinds other before
    · rw [List.mem_singleton.mp last]
      exact kind
  restKinds := .inl (by simp)
  held := by simp

theorem offerMore (account : Account shows parts typed rest)
    (offers : ∃ part ∈ added, part.kind = .suggestion)
    (line : ∀ part ∈ added, part.kind ≠ .placeholder) :
    Account shows (parts ++ added) typed (rest ++ added) where
  split := by simp [account.split]
  typedKinds := account.typedKinds
  restKinds := by
    obtain ⟨part, member, kind⟩ := offers
    exact .inr ⟨part, List.mem_append_right rest member, kind⟩
  held part member kind := by
    rcases List.mem_append.mp member with before | among
    · exact account.held part before kind
    · exact absurd kind (line part among)

theorem holdOpen (account : Account shows parts typed rest) (kind : part.kind = .placeholder)
    (shown : shows) : Account shows (parts ++ [part]) typed (rest ++ [part]) where
  split := by simp [account.split]
  typedKinds := account.typedKinds
  restKinds := by
    rcases account.restKinds with placeholders | ⟨offered, member, other⟩
    · refine .inl fun part member => ?_
      rcases List.mem_append.mp member with before | last
      · exact placeholders part before
      · rw [List.mem_singleton.mp last]
        exact kind
    · exact .inr ⟨offered, List.mem_append_left _ member, other⟩
  held _ _ _ := shown

/-- What was typed opens the spelled text. -/
theorem typed_leading (account : Account shows parts typed rest) :
    (typed.map (·.content)).flatten <+: Part.spelled parts := by
  have whole : typed.filter isSpelled = typed := by
    apply List.filter_eq_self.mpr
    intro part member
    simp [isSpelled, account.typedKinds part member]
  refine ⟨Part.spelled rest, ?_⟩
  rw [account.split, spelled_append, ← List.flatMap_def]
  simp [spelled, contents, whole]

/-- Without a suggestion all parts but placeholders were typed in full. -/
theorem typed_eq (account : Account shows parts typed rest)
    (complete : ∀ part ∈ parts, part.kind ≠ .suggestion) :
    typed = parts.filter (·.isLine) := by
  have placeholders : ∀ part ∈ rest, part.kind = .placeholder := by
    rcases account.restKinds with placeholders | ⟨offered, member, kind⟩
    · exact placeholders
    · have among : offered ∈ parts := by simp [account.split, member]
      exact absurd kind (complete offered among)
  have kept : typed.filter (·.isLine) = typed := by
    apply List.filter_eq_self.mpr
    intro part member
    simp [isLine, account.typedKinds part member]
  have dropped : rest.filter (·.isLine) = [] := by
    apply List.filter_eq_nil_iff.mpr
    intro part member
    simp [isLine, placeholders part member]
  rw [account.split, List.filter_append, kept, dropped, List.append_nil]

theorem shows_of_placeholder (account : Account shows parts typed rest) (member : part ∈ parts)
    (kind : part.kind = .placeholder) : shows := by
  rw [account.split] at member
  rcases List.mem_append.mp member with inTyped | inRest
  · simp [account.typedKinds part inTyped] at kind
  · exact account.held part inRest kind

end Account

end Part

namespace Branch

/-- The texts of what was typed in full are noted, and nothing else is. -/
structure Noted (shows : Prop) (branch : Branch Host.notes) : Prop where
  plain : branch.holder = .plain []
  account : ∃ typed rest, Part.Account shows branch.parts typed rest ∧
    branch.data = typed.map (·.content) ∧ (rest ≠ [] → branch.input = [])

theorem used_of_add {H : Host} {branch next : Branch H} {part : Part}
    (kind : part.kind = .suggestion ∨ part.kind = .placeholder)
    (added : branch.add part = .ok next) : branch.input = [] := by
  cases add_eq_ok_iff.mp added with
  | behind nonempty other used => exact used
  | beside nonempty other => rcases kind with kind | kind <;> simp [kind] at other
  | covering nonempty other => rcases kind with kind | kind <;> simp [kind] at other

namespace Noted

variable {shows : Prop} {branch next : Branch Host.notes}

theorem root {given : Text} (rooted : (Branch.root given (.plain [])).Results branch) :
    branch.Noted shows := by
  obtain ⟨data, begun, made⟩ := Action.results_bind rooted
  cases Action.results_pure begun
  cases Action.results_pure made
  exact ⟨rfl, [], [], ⟨rfl, by simp, .inl (by simp), by simp⟩, rfl, by simp⟩

theorem fork {copy : Branch Host.notes} (noted : branch.Noted shows)
    (copied : branch.fork.Results copy) : copy.Noted shows := by
  obtain ⟨data, same, made⟩ := Action.results_bind copied
  rw [noted.plain] at same
  cases Action.results_pure same
  cases Action.results_pure made
  exact ⟨noted.plain, noted.account⟩

theorem carried : Carried (Noted shows) where
  copied _ _ := fork
  stacked _ _ noted := ⟨noted.plain, noted.account⟩
  finished _ noted := ⟨noted.plain, noted.account⟩

/-- A text that is typed in full is added and noted. -/
theorem typed {content : Text} {marker : Option Marker} (noted : branch.Noted shows)
    (added : branch.add { content, kind := .input, marker } = .ok next) :
    Noted shows { next with data := branch.data ++ [content] } := by
  obtain ⟨typed, rest, account, data, behind⟩ := noted.account
  obtain ⟨left, parts, _⟩ := add_input rfl added
  obtain ⟨consumed, pastEnd, same⟩ := add_eq_ok added
  have nothing : rest = [] := by
    by_contra more
    exact left (behind more)
  subst nothing
  refine ⟨?_, typed ++ [{ content, kind := .input, marker }], [], ?_, ?_, by simp⟩
  · rw [same]
    exact noted.plain
  · change Part.Account shows next.parts _ _
    rw [parts]
    exact account.typeMore rfl
  · rw [data, List.map_append]
    rfl

/-- What is offered, and the typed text right before it, is not noted. -/
theorem offered {added : List Part} (noted : branch.Noted shows)
    (holder : next.holder = branch.holder) (data : next.data = branch.data)
    (parts : next.parts = branch.parts ++ added) (used : next.input = [])
    (offers : ∃ part ∈ added, part.kind = .suggestion)
    (line : ∀ part ∈ added, part.kind ≠ .placeholder) : next.Noted shows := by
  obtain ⟨typed, rest, account, same, _⟩ := noted.account
  refine ⟨holder.trans noted.plain, typed, rest ++ added, ?_, data.trans same, fun _ => used⟩
  rw [parts]
  exact account.offerMore offers line

theorem addBegun {typed suggestion : Text} {marker : Option Marker} (noted : branch.Noted shows) :
    Item.Holds (Noted shows) (branch.addOverlap marker (.begun typed suggestion)) := by
  intro next answered
  have ends : ∀ {begun : Branch Host.notes},
      begun.add { content := suggestion, kind := .suggestion, marker } = .ok next →
      next.input = [] ∧
        next.parts = begun.parts ++ [{ content := suggestion, kind := .suggestion, marker }] :=
    fun second => add_untyped (.inl rfl) (used_of_add (.inl rfl) second) second
  rw [addOverlap] at answered
  split at answered
  · obtain ⟨begun, first, second⟩ := Except.bind_eq_ok answered
    cases first
    obtain ⟨used, parts⟩ := ends second
    obtain ⟨_, _, same⟩ := add_eq_ok second
    exact noted.offered (by rw [same]) (by rw [same]) parts used (by simp) (by simp)
  · obtain ⟨begun, first, second⟩ := Except.bind_eq_ok answered
    obtain ⟨used, parts⟩ := ends second
    obtain ⟨_, _, same⟩ := add_eq_ok second
    obtain ⟨_, _, same'⟩ := add_eq_ok first
    rw [same', List.append_assoc] at parts
    exact noted.offered (by rw [same, same']) (by rw [same, same']) parts used (by simp) (by simp)

theorem heldOpen {settings : Settings Host.notes} {text : Text} (noted : branch.Noted shows)
    (shown : shows) : Item.Holds (Noted shows) (settings.addPlaceholder text branch) := by
  intro next answered
  obtain ⟨held, added, made⟩ := Except.bind_eq_ok answered
  cases made
  obtain ⟨typed, rest, account, data, _⟩ := noted.account
  have used := used_of_add (.inr rfl) added
  obtain ⟨used', parts⟩ := add_untyped (.inr (.inr rfl)) used added
  obtain ⟨consumed, pastEnd, same⟩ := add_eq_ok added
  refine ⟨?_, typed, rest ++ [{ content := text, kind := .placeholder, marker := settings.marker }],
    ?_, ?_, fun _ => used'⟩
  · rw [same]
    exact noted.plain
  · change Part.Account shows held.parts _ _
    rw [parts]
    exact account.holdOpen rfl shown
  · rw [same]
    exact data

end Noted

end Branch

/-! ### Trees that take texts as they are -/

namespace Settings

variable {settings : Settings Host.notes} {extended item : Item Host.notes}

theorem yields_yieldExtended_gather {emission : Emission Host.notes}
    (gathers : settings.onEmission = some gather)
    (yielded : (settings.yieldExtended extended (some emission)).Yields item) :
    item = extended.map fun branch => { branch with data := branch.data ++ emission.texts } := by
  cases extended with
  | error cause => exact Run.yields_one (Action.yields_pure yielded)
  | ok branch =>
      obtain ⟨next, emitted, given⟩ := Action.yields_bind yielded
      rw [Run.yields_one (Action.yields_pure given), emit_gather gathers emitted]
      rfl

theorem yields_yieldExtended_none (yielded : (settings.yieldExtended extended none).Yields item) :
    item = extended := by
  cases extended <;> exact Run.yields_one (Action.yields_pure yielded)

end Settings

variable {shows : Prop}

theorem Literal.noted_step {literal : Literal} {settings : Settings Host.notes}
    (gathers : settings.onEmission = some gather) :
    (literal.step settings).Keeps (Branch.Noted shows) := by
  intro branch item noted yielded
  rw [step] at yielded
  split at yielded
  · exact absurd yielded Action.not_yields_empty
  · rename_i overlap found
    cases overlap with
    | full matched rest =>
        obtain ⟨rfl, _⟩ := Text.overlap?_eq_full_iff.mp found
        rw [Settings.yields_yieldExtended_gather gathers yielded]
        intro next answered
        cases added : branch.addOverlap settings.marker (.full literal.text rest) with
        | error cause => simp [added, Except.map] at answered
        | ok extended =>
            rw [added] at answered
            cases answered
            obtain ⟨_, _, same⟩ := Branch.add_eq_ok added
            have data : extended.data = branch.data := by rw [same]
            change Branch.Noted shows { extended with data := extended.data ++ [literal.text] }
            rw [data]
            exact noted.typed added
    | begun typed suggestion =>
        rw [Settings.yields_yieldExtended_none yielded]
        exact noted.addBegun

namespace Kind

/-- Texts that are taken as they are, and the kinds that only pass branches on. -/
def isVerbatim {H : Host} : Kind H → Bool
  | .literal shape => !shape.fuzzy
  | .sequence | .fork | .optional | .pick _ => true
  | _ => false

theorem noted_build {kind : Kind Host.notes} {options : RuleOptions Host.notes}
    {children : List (Parser Host.notes)} {parser : Parser Host.notes}
    (verbatim : kind.isVerbatim = true) (shown : options.placeholder ≠ none → shows)
    (keep : ∀ child ∈ children, child.Keeps (Branch.Noted shows))
    (built : kind.build (options.handling gather kind) children = .ok parser) :
    parser.Keeps (Branch.Noted shows) := by
  have placeholder : (options.handling gather kind).placeholder = options.placeholder := by
    cases kind <;> rfl
  obtain ⟨prepared, _, completed, rfl⟩ := Matcher.build_eq_ok built
  have same : prepared = (options.handling gather kind).settings children := by
    cases kind <;> first
      | exact (Except.ok.inj completed).symm
      | simp [isVerbatim] at verbatim
  subst same
  have below : ((options.handling gather kind).settings children).ChildrenKeep
    (Branch.Noted shows) := keep
  apply Parser.keeps_around Branch.Noted.carried
  · intro branch text set noted _
    refine noted.heldOpen (shown ?_)
    rw [← placeholder]
    simp [show (options.handling gather kind).placeholder = some text from set]
  · cases kind with
    | literal shape =>
        have plain : shape.fuzzy = false := by simpa [isVerbatim] using verbatim
        let settings := (options.handling gather (.literal shape)).settings children
        have keeps : (shape.step settings).Keeps (Branch.Noted shows) := Literal.noted_step rfl
        simpa [matcher, Literal.matcher, plain] using keeps
    | sequence => exact Sequence.keeps_step below
    | fork => exact Fork.keeps_step Branch.Noted.carried.copied below
    | optional => exact Optional.keeps_step Branch.Noted.carried.copied below
    | pick shape => exact Pick.keeps_step shape Branch.Noted.carried.copied below
    | _ => simp [isVerbatim] at verbatim

end Kind

theorem Rule.keeps_noted {rule : Rule Host.notes} {parser : Parser Host.notes}
    (verbatim : rule.Every fun kind options =>
      kind.isVerbatim = true ∧ (options.placeholder ≠ none → shows))
    (built : (rule.handled gather).build = .ok parser) : parser.Keeps (Branch.Noted shows) := by
  have handled : (rule.handled gather).Every fun kind options => ∃ given : RuleOptions Host.notes,
      (kind.isVerbatim = true ∧ (given.placeholder ≠ none → shows)) ∧
        options = given.handling gather kind :=
    every_mapOptions verbatim fun kind options known => ⟨options, known, rfl⟩
  refine Every.built (Q := fun _ parser => parser.Keeps (Branch.Noted shows)) ?_ handled built
  rintro kind _ children parsers parser ⟨options, ⟨known, shown⟩, rfl⟩ below made
  refine Kind.noted_build known shown ?_ made
  intro child member
  obtain ⟨_, _, keeps⟩ := exists_of_mem_forall₂ below member
  exact keeps

namespace Grammar

variable {rule : Rule Host.notes} {parser : Parser Host.notes} {input : Text}
  {options : ParseOptions} {cursor : Cursor Host.notes (Except Error (ParseResult Host.notes))}
  {result : ParseResult Host.notes}

theorem account_of_noted (keeps : parser.Keeps (Branch.Noted shows))
    (begun : ((notes parser).parse input options).Results cursor)
    (yielded : cursor.Yields (.ok result)) :
    ∃ typed rest, Part.Account shows result.parts typed rest ∧
      result.data = typed.map (·.content) := by
  obtain ⟨branch, noted, rfl⟩ := holds_of_keeps keeps (fun _ => Branch.Noted.root) begun yielded
  obtain ⟨typed, rest, account, data, _⟩ := noted.account
  exact ⟨typed, rest, account, data⟩

/-- The notes of a result spell the beginning of it, and where nothing is suggested they
are its parts but for placeholders.  There are none of these unless some rule sets one. -/
theorem parse_notes (verbatim : rule.Every fun kind _ => kind.isVerbatim = true)
    (built : (rule.handled gather).build = .ok parser)
    (begun : ((notes parser).parse input options).Results cursor)
    (yielded : cursor.Yields (.ok result)) :
    result.data.flatten <+: result.spelled ∧
      ((∀ part ∈ result.parts, part.kind ≠ .suggestion) →
        result.data = (result.parts.filter (·.isLine)).map (·.content)) ∧
      ((rule.Every fun _ options => options.placeholder = none) →
        result.parts.filter (·.isLine) = result.parts) := by
  have anyway : rule.Every fun kind options =>
      kind.isVerbatim = true ∧ (options.placeholder ≠ none → True) :=
    verbatim.mono fun _ _ known => ⟨known, fun _ => trivial⟩
  obtain ⟨typed, rest, account, data⟩ :=
    account_of_noted (rule.keeps_noted anyway built) begun yielded
  refine ⟨?_, ?_, ?_⟩
  · rw [data]
    exact account.typed_leading
  · intro complete
    rw [data, ← account.typed_eq complete]
  · intro unset
    have never : rule.Every fun kind options =>
        kind.isVerbatim = true ∧ (options.placeholder ≠ none → False) :=
      (verbatim.and unset).mono fun _ _ known => ⟨known.1, fun set => set known.2⟩
    obtain ⟨_, _, account', _⟩ :=
      account_of_noted (rule.keeps_noted never built) begun yielded
    apply List.filter_eq_self.mpr
    intro part member
    by_contra held
    exact account'.shows_of_placeholder member (by simpa [Part.isLine] using held)

/-- Two readings of the beginning, and what follows in any order. -/
def mixture : Rule Host.notes :=
  .node .sequence {} [
    .node .fork {} [
      .node (.literal { text := ['a'] }) {} [],
      .node (.literal { text := ['a', 'b'] }) {} []],
    .node (.pick {}) {} [
      .node (.literal { text := ['b'] }) {} [],
      .node .optional {} [.node (.literal { text := ['c'] }) {} []]]]

theorem mixture_every {P : Kind Host.notes → RuleOptions Host.notes → Prop}
    (sequence : P .sequence {}) (fork : P .fork {}) (pick : P (.pick {}) {})
    (optional : P .optional {}) (text : ∀ text, P (.literal { text }) {}) : mixture.Every P := by
  have leaf : ∀ text, Rule.Every P (.node (.literal { text }) {} []) :=
    fun content => .node (text content) (by simp)
  refine .node sequence fun child member => ?_
  simp only [List.mem_cons, List.not_mem_nil, or_false] at member
  rcases member with rfl | rfl
  · refine .node fork fun child member => ?_
    simp only [List.mem_cons, List.not_mem_nil, or_false] at member
    rcases member with rfl | rfl <;> exact leaf _
  · refine .node pick fun child member => ?_
    simp only [List.mem_cons, List.not_mem_nil, or_false] at member
    rcases member with rfl | rfl
    · exact leaf _
    · refine .node optional fun child member => ?_
      rw [List.mem_singleton.mp member]
      exact leaf _

theorem parse_notes_mixture : ∃ parser cursor result,
    (mixture.handled gather).build = .ok parser ∧
    ((notes parser).parse ['a', 'b', 'c'] {}).Results cursor ∧ cursor.Yields (.ok result) ∧
    result.data = [['a'], ['b'], ['c']] ∧
    result.data.flatten <+: result.spelled ∧
      ((∀ part ∈ result.parts, part.kind ≠ .suggestion) →
        result.data = (result.parts.filter (·.isLine)).map (·.content)) ∧
      ((mixture.Every fun _ options => options.placeholder = none) →
        result.parts.filter (·.isLine) = result.parts) := by
  obtain ⟨parser, built⟩ : ∃ parser, (mixture.handled gather).build = .ok parser := ⟨_, rfl⟩
  have answers : (mixture.handled gather).build.toOption.all (fun parser =>
      (((notes parser).parse ['a', 'b', 'c'] {} ()).result.next ()).result.1.any fun
        | .ok result => result.data = [['a'], ['b'], ['c']]
        | .error _ => false) = true := by decide +kernel
  rw [built] at answers
  obtain ⟨answer, answered, data⟩ := (Option.any_eq_true _ _).mp answers
  cases answer with
  | error cause => contradiction
  | ok result =>
      have yielded := Cursor.yields_next answered
      have verbatim : mixture.Every fun kind _ => kind.isVerbatim = true :=
        mixture_every rfl rfl rfl rfl fun _ => rfl
      exact ⟨parser, _, result, built, ⟨(), rfl⟩, yielded, of_decide_eq_true data,
        parse_notes verbatim built ⟨(), rfl⟩ yielded⟩

/-- A text whose place is held open as long as nothing is typed. -/
def vacancy : Rule Host.notes :=
  .node .fork { placeholder := some ['x'] } [.node (.literal { text := ['a'] }) {} []]

/-- A placeholder is a part that no text was found for. -/
theorem placeholder_unnoted : ∃ parser cursor result,
    (vacancy.Every fun kind _ => kind.isVerbatim = true) ∧
    (vacancy.handled gather).build = .ok parser ∧
    ((notes parser).parse [] {}).Results cursor ∧ cursor.Yields (.ok result) ∧
    (∀ part ∈ result.parts, part.kind ≠ .suggestion) ∧
    result.data ≠ result.parts.map (·.content) := by
  obtain ⟨parser, built⟩ : ∃ parser, (vacancy.handled gather).build = .ok parser := ⟨_, rfl⟩
  have answers : (vacancy.handled gather).build.toOption.all (fun parser =>
      (((notes parser).parse [] {} ()).result.next ()).result.1.any fun
        | .ok result => result.data = [] ∧ result.parts = [⟨['x'], .placeholder, none⟩]
        | .error _ => false) = true := by decide +kernel
  rw [built] at answers
  obtain ⟨answer, answered, found⟩ := (Option.any_eq_true _ _).mp answers
  cases answer with
  | error cause => contradiction
  | ok result =>
      obtain ⟨data, parts⟩ := of_decide_eq_true found
      refine ⟨parser, _, result, ?_, built, ⟨(), rfl⟩, Cursor.yields_next answered, ?_, ?_⟩
      · refine .node rfl fun child member => ?_
        rw [List.mem_singleton.mp member]
        exact .node rfl (by simp)
      · simp [parts]
      · simp [data, parts]

end Grammar

end Typeahead
