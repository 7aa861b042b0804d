import Mathlib.Data.List.Sort
import Typeahead.Proofs.Numbers
import Typeahead.Proofs.Run.Pulls

namespace Typeahead

/-! The integers that are offered for an input.

The search for integers that fit the input passes none over, but it stops also at those
that the input has gone past.  These leave input and are dropped; what remains are the
integers whose text begins with the input, in order. -/

variable {H : Host}

namespace Text

theorem lower_of_isDigit {letter : Char} (digit : letter.isDigit = true) :
    lower letter = [letter] := by
  simp only [Char.isDigit, Bool.and_eq_true, decide_eq_true_eq, UInt32.le_iff_toNat_le] at digit
  change 48 ≤ letter.toNat ∧ letter.toNat ≤ 57 at digit
  have caseless : letter.toLower = letter := by
    unfold Char.toLower
    rw [dif_neg]
    intro upper
    simp only [UInt32.le_iff_toNat_le] at upper
    change 65 ≤ letter.toNat ∧ letter.toNat ≤ 90 at upper
    omega
  rw [lower, if_pos (by omega), caseless]

theorem lower_of_mem_ofInt {letter : Char} {integer : Int} (member : letter ∈ ofInt integer) :
    lower letter = [letter] := by
  have digit : ∀ magnitude, letter ∈ Nat.toDigits 10 magnitude → lower letter = [letter] :=
    fun _ found =>
      lower_of_isDigit (Nat.isDigit_of_mem_toDigits (by decide) (by decide) found)
  cases integer with
  | ofNat magnitude => exact digit _ member
  | negSucc below =>
      rcases List.mem_cons.mp member with rfl | behind
      · decide
      · exact digit _ behind

/-- The text of an integer is read back as that integer. -/
theorem ofInt_injective : Function.Injective ofInt := by
  intro integer other same
  have numerals : Numeral.ofInt integer = Numeral.ofInt other := by
    have read := Numeral.leading?_ofInt integer
    rw [same, Numeral.leading?_ofInt] at read
    exact (Option.some.inj read).symm
  simp only [Numeral.ofInt, Numeral.mk.injEq, decide_eq_decide, and_true] at numerals
  obtain ⟨sign, digits⟩ := numerals
  have magnitudes : integer.natAbs = other.natAbs := by
    rw [← Nat.ofDigitChars_ten_toDigits (n := integer.natAbs), digits,
      Nat.ofDigitChars_ten_toDigits]
  omega

/-- The input is the text of one integer at most. -/
theorem BeginsWith.integer_unique {input : Text} {integer other : Int}
    (begins : (ofInt integer).BeginsWith input) (begins' : (ofInt other).BeginsWith input)
    (whole : (ofInt integer).length = input.length)
    (whole' : (ofInt other).length = input.length) : integer = other := by
  have same : Alike false (ofInt integer) (ofInt other) :=
    (begins.alike whole).trans (begins'.alike whole').symm
  exact ofInt_injective
    (same.eq_of_lower (fun _ => lower_of_mem_ofInt) fun _ => lower_of_mem_ofInt)

end Text

namespace Number

/-! ### The search for integers that fit -/

/-- So many integers from the first on. -/
def integersFrom : Nat → Int → List Int
  | 0, _ => []
  | count + 1, first => first :: integersFrom count (first + 1)

theorem mem_integersFrom {count : Nat} {first integer : Int} :
    integer ∈ integersFrom count first ↔ first ≤ integer ∧ integer < first + count := by
  induction count generalizing first with
  | zero =>
      simp only [integersFrom, List.not_mem_nil, false_iff]
      omega
  | succ count ih =>
      rw [integersFrom, List.mem_cons, ih]
      omega

theorem integersFrom_increasing (count : Nat) (first : Int) :
    (integersFrom count first).Pairwise (· < ·) := by
  induction count generalizing first with
  | zero => exact List.Pairwise.nil
  | succ count ih =>
      refine List.pairwise_cons.mpr ⟨fun integer member => ?_, ih (first + 1)⟩
      have behind := (mem_integersFrom.mp member).1
      omega

/-- Those of so many integers from the first on that fit the input. -/
def fitting (input : Text) (count : Nat) (first : Int) : List Int :=
  (integersFrom count first).filter (fits input)

/-- No integer in front of the first fit is one that fits. -/
theorem fitting_eq (input : Text) (count : Nat) (first : Int) :
    fitting input count first =
      match firstFit? input count first with
      | none => []
      | some (behind, fit) => fit :: fitting input behind (fit + 1) := by
  induction count generalizing first with
  | zero => rfl
  | succ count ih =>
      rw [firstFit?, fitting, integersFrom, List.filter_cons]
      split
      · rfl
      · exact ih (first + 1)

/-- Every integer that fits is asked for its offer, in order. -/
theorem gives_offersFrom {settings : Settings H} {branch : Branch H} {count : Nat} {first : Int}
    {items : List (Item H)} (gives : (offersFrom settings branch count first).Gives items) :
    ∃ groups, List.Forall₂ (fun integer group => (offer settings branch integer).Gives group)
        (fitting branch.input count first) groups ∧
      items = groups.flatten := by
  -- fewer integers are left behind the first one that fits
  induction count using Nat.strongRecOn generalizing first items with
  | ind count ih =>
      rw [offersFrom_eq] at gives
      rw [fitting_eq]
      cases found : firstFit? branch.input count first with
      | none =>
          rw [found] at gives
          exact ⟨[], List.Forall₂.nil, Run.gives_empty gives⟩
      | some fits =>
          obtain ⟨behind, fit⟩ := fits
          rw [found] at gives
          obtain ⟨run, begun, given⟩ := Action.gives_bind (Run.gives_defer gives)
          obtain ⟨group, others, ofFit, ofOthers, rfl⟩ :=
            Run.gives_append (Action.gives_pure given)
          obtain ⟨groups, grouped, rfl⟩ := ih behind (firstFit?_lt found) ofOthers
          exact ⟨group :: groups, List.Forall₂.cons ⟨run, begun, ofFit⟩ grouped, rfl⟩

theorem fits_of_beginsWith {input : Text} {integer : Int}
    (begins : (Text.ofInt integer).BeginsWith input) : fits input integer = true := by
  rw [fits, Text.overlap?]
  split
  · rfl
  · rw [Option.isSome_map]
    exact Text.beginsWith_iff.mp begins

/-! ### What remains of the offers -/

/-- The integers from the first to the last whose text begins with the input: each once, in
order, and one of them at most is typed in full. -/
structure Completions (input : Text) (first last : Int) (integers : List Int) : Prop where
  increasing : integers.Pairwise (· < ·)
  complete : ∀ integer, integer ∈ integers ↔
    first ≤ integer ∧ integer ≤ last ∧ (Text.ofInt integer).BeginsWith input
  typedOnce : ∀ integer ∈ integers, ∀ other ∈ integers,
    (Text.ofInt integer).length = input.length → (Text.ofInt other).length = input.length →
      integer = other

theorem exists_completions (input : Text) (first last : Int) : Completions input first last
    ((fitting input (last - first + 1).toNat first).filter
      fun integer => (Text.ofInt integer).BeginsWith input) := by
  have complete : ∀ integer,
      integer ∈ (fitting input (last - first + 1).toNat first).filter
          (fun integer => (Text.ofInt integer).BeginsWith input) ↔
        first ≤ integer ∧ integer ≤ last ∧ (Text.ofInt integer).BeginsWith input := by
    intro integer
    simp only [fitting, List.mem_filter, mem_integersFrom, decide_eq_true_eq]
    constructor
    · rintro ⟨⟨⟨behind, ahead⟩, _⟩, begins⟩
      exact ⟨behind, by omega, begins⟩
    · rintro ⟨behind, ahead, begins⟩
      exact ⟨⟨⟨behind, by omega⟩, fits_of_beginsWith begins⟩, begins⟩
  refine ⟨((integersFrom_increasing _ first).filter _).filter _, complete, ?_⟩
  intro integer member other member' whole whole'
  exact ((complete integer).mp member).2.2.integer_unique ((complete other).mp member').2.2
    whole whole'

theorem Completions.unique {input : Text} {first last : Int} {integers others : List Int}
    (completions : Completions input first last integers)
    (completions' : Completions input first last others) : integers = others :=
  completions.increasing.eq_of_mem_iff completions'.increasing fun integer =>
    (completions.complete integer).trans (completions'.complete integer).symm

/-- What the owner is shown of an integer: all of the input is in the line, which is the text
of the integer, and the value was handed over if and only if nothing is left to type. -/
structure Proposes (options : RuleOptions H) (holder : Holder H) (input : Text) (integer : Int)
    (result : ParseResult H) : Prop where
  line : result.line = Text.ofInt integer
  covered : result.input = []
  handed : ∃ start copied, holder.init.Results start ∧ (holder.copy start).Results copied ∧
    if (Text.ofInt integer).length = input.length then
      options.Emits (.number (Decimal.ofInt integer)) copied result.data
    else result.data = copied

variable {options : RuleOptions H} {copy next : Branch H} {integer : Int}

theorem Fitted.input_eq_nil_iff (fitted : Fitted options copy integer next) :
    next.input = [] ↔ (Text.ofInt integer).BeginsWith copy.input := by
  cases fitted with
  | @typed spelled rest data split alike emits =>
      have nonempty : spelled ≠ [] := fun empty =>
        Text.ofInt_ne_nil integer (alike.eq_nil_iff.mp empty)
      have left : (copy.read options.marker spelled (Text.ofInt integer)).input = rest :=
        (Branch.consumed_input nonempty split).1
      change (copy.read options.marker spelled (Text.ofInt integer)).input = [] ↔ _
      rw [left, split]
      constructor
      · rintro rfl
        exact ⟨_, [], (List.append_nil _).symm, by rw [List.append_nil]; exact alike.symm⟩
      · intro begins
        have shorter := begins.length_le
        rw [List.length_append, alike.length_eq] at shorter
        exact List.length_eq_zero_iff.mp (by omega)
  | @begun typed pending split left alike =>
      exact ⟨fun _ => ⟨typed, pending, split, alike⟩, fun _ => rfl⟩

theorem Fitted.line (fitted : Fitted options copy integer next) (fresh : copy.parts = []) :
    next.toResult.line = Text.ofInt integer := by
  cases fitted with
  | typed split alike emits =>
      simp [ParseResult.line, Branch.toResult, Branch.read, Branch.withPart, fresh, Part.isLine]
  | @begun typed pending split left alike =>
      have plain : ∀ part ∈ Part.begun options.marker typed pending,
          part.isLine = true ∧ part.isSpelled = true := by
        intro part member
        rcases Part.mem_begun member with kind | kind <;>
          simp [Part.isLine, Part.isSpelled, kind]
      have shown : (Part.begun options.marker typed pending).takeWhile (·.isLine) = _ :=
        List.takeWhile_eq_self_iff.mpr fun part member => (plain part member).1
      have spelled : (Part.begun options.marker typed pending).filter Part.isSpelled = _ :=
        List.filter_eq_self.mpr fun part member => (plain part member).2
      rw [ParseResult.line, Branch.toResult, Branch.offered, fresh, List.nil_append, shown, split,
        ← Part.spelled_begun, Part.spelled, spelled]

theorem Fitted.handed (fitted : Fitted options copy integer next)
    (begins : (Text.ofInt integer).BeginsWith copy.input) :
    if (Text.ofInt integer).length = copy.input.length then
      options.Emits (.number (Decimal.ofInt integer)) copy.data next.data
    else next.data = copy.data := by
  cases fitted with
  | typed split alike emits =>
      have longer := begins.length_le
      rw [split, List.length_append, alike.length_eq] at longer ⊢
      rw [if_pos (by omega)]
      exact emits
  | begun split left alike =>
      have positive := List.length_pos_iff.mpr left
      rw [split, List.length_append, alike.length_eq, if_neg (by omega)]
      rfl

/-- The answers to a list of members, of which each chosen one has a single result. -/
theorem exists_results {α ε ρ : Type} {P : α → ρ → Prop} {chosen : α → Prop}
    [DecidablePred chosen] {members : List α} {groups : List (List (Except ε ρ))}
    (each : List.Forall₂ (fun member group =>
      if chosen member then ∃ result, group = [.ok result] ∧ P member result else group = [])
      members groups) :
    ∃ results : List ρ, groups.flatten = results.map .ok ∧
      List.Forall₂ P (members.filter chosen) results := by
  induction each with
  | nil => exact ⟨[], rfl, List.Forall₂.nil⟩
  | @cons member group members groups answered _ ih =>
      obtain ⟨results, flat, proposed⟩ := ih
      by_cases choice : chosen member
      · rw [if_pos choice] at answered
        obtain ⟨result, rfl, proposes⟩ := answered
        refine ⟨result :: results, by simp [flat], ?_⟩
        rw [List.filter_cons_of_pos (by simpa using choice)]
        exact List.Forall₂.cons proposes proposed
      · rw [if_neg choice] at answered
        subst answered
        refine ⟨results, by simp [flat], ?_⟩
        rw [List.filter_cons_of_neg (by simpa using choice)]
        exact proposed

/-- On a fresh branch the options let through one result for an integer whose text begins with
the input, and nothing for any other. -/
theorem answers_of_offer {holder : Holder H} {input : Text} {start : H.Data} {root : Branch H}
    {group : List (Item H)} (began : holder.init.Results start)
    (rooted : root = { given := input, holder, data := start })
    (gives : (offer (options.settings []) (root.pushStack "number") integer).Gives group) :
    let answers := (group.map (·.map Branch.popStack)).filterMap ({} : ParseOptions).result?
    if (Text.ofInt integer).BeginsWith input then
      ∃ result, answers = [.ok result] ∧ Proposes options holder input integer result
    else answers = [] := by
  intro answers
  have unsuggested : (root.pushStack "number").hasKind .suggestion = false := by rw [rooted]; rfl
  have typed : (root.pushStack "number").input = input := by
    rw [rooted, Branch.input_fresh]
  have offered := gives_offer unsuggested gives
  rw [typed] at offered
  split at offered
  · obtain ⟨copy, next, forked, rfl, fitted⟩ := offered
    have used := fitted.input_eq_nil_iff
    have handed := fitted.handed
    rw [(Branch.fork_input forked).trans typed] at used handed
    subst rooted
    obtain ⟨copied, copies, rfl⟩ := Branch.fork_copies forked
    split
    · rename_i begins
      have left : next.popStack.hasInput = false :=
        Branch.hasInput_eq_false_iff.mpr (used.mpr begins)
      refine ⟨next.popStack.toResult, ?_, ?_⟩
      · simp [answers, Except.map, ParseOptions.result?, left]
      · exact ⟨fitted.line rfl, used.mpr begins, start, copied, began, copies, handed begins⟩
    · rename_i strays
      have left : next.popStack.hasInput = true :=
        Branch.hasInput_iff.mpr fun empty => strays (used.mp empty)
      simp [answers, Except.map, ParseOptions.result?, left]
  · rename_i unlike
    have strays : ¬ (Text.ofInt integer).BeginsWith input :=
      fun begins => unlike (fits_of_beginsWith begins)
    rw [if_neg strays]
    simp [answers, offered]

end Number

namespace Grammar

variable {number : Number} {bound other : Float} {options : RuleOptions H} {parser : Parser H}
  {holder : Holder H} {input : Text}

theorem proposals_of_gives {answers : List (Except Error (ParseResult H))}
    (offers : number.offersAll = true) (least : number.min = some bound)
    (greatest : number.max = some other) (enabled : options.enabled (.number number) = true)
    (placeholder : options.placeholder = none) (requiresInput : options.requiresInput = false)
    (gives : (Grammar.results { parser := number.parser options, holder } input {}).Gives answers) :
    let first := (Number.integersBetween bound other).1
    let last := (Number.integersBetween bound other).2
    ∃ results : List (ParseResult H), answers = results.map .ok ∧
      List.Forall₂ (Number.Proposes options holder input)
        ((Number.fitting input (last - first + 1).toNat first).filter
          fun integer => (Text.ofInt integer).BeginsWith input) results := by
  intro first last
  obtain ⟨root, items, rooted, given, rfl⟩ := Grammar.gives_results gives
  obtain ⟨start, began, same⟩ := Branch.root_begins rooted
  have unfinished : root.isFinished = false := by rw [same]; rfl
  rw [Number.parser, enabled, offers, if_pos rfl] at given
  obtain ⟨inner, inside, rfl⟩ := Parser.gives_around unfinished placeholder requiresInput given
  simp only [Number.offerStep, least, greatest] at inside
  obtain ⟨groups, grouped, rfl⟩ := Number.gives_offersFrom (Action.gives_pure inside)
  have typed : (root.pushStack "number").input = input := by
    rw [same, Branch.input_fresh]
  rw [typed] at grouped
  have answered : List.Forall₂ (fun integer answers =>
      if (Text.ofInt integer).BeginsWith input then
        ∃ result, answers = [.ok result] ∧ Number.Proposes options holder input integer result
      else answers = [])
      (Number.fitting input (last - first + 1).toNat first)
      (groups.map fun group =>
        (group.map (·.map Branch.popStack)).filterMap ({} : ParseOptions).result?) := by
    refine List.forall₂_map_right_iff.mpr (grouped.imp fun integer group offered => ?_)
    exact Number.answers_of_offer began same offered
  obtain ⟨results, flat, proposed⟩ := Number.exists_results answered
  refine ⟨results, ?_, proposed⟩
  rw [← flat, List.map_flatten, List.filterMap_flatten, List.map_map]
  rfl

/-- A number that offers the integers between its bounds offers those whose text begins with the
input, in order, and hands over the one that is typed in full, if there is one.  It does so
in whatever worlds the parse is pulled, and when all results are collected. -/
theorem parse_offers_integers (offers : number.offersAll = true)
    (least : number.min = some bound) (greatest : number.max = some other)
    (enabled : options.enabled (.number number) = true) (placeholder : options.placeholder = none)
    (requiresInput : options.requiresInput = false)
    (built : (Rule.node (.number number) options []).build = .ok parser) (holder : Holder H)
    (input : Text) :
    ∃ integers, Number.Completions input (Decimal.integerAbove (Number.inOrder bound other).1)
        (Decimal.integerBelow (Number.inOrder bound other).2) integers ∧
      (∀ world worlds, ∃ results,
        List.Forall₂ (Number.Proposes options holder input) integers results ∧
          ((Grammar.parse { parser, holder } input {} world).result.pullIn worlds).1 =
            (List.range worlds.length).map fun place => results[place]?.map .ok) ∧
      ∀ world, ∃ results,
        (Grammar.parseAll { parser, holder } input {} world).result = .ok results ∧
          List.Forall₂ (Number.Proposes options holder input) integers results := by
  rw [Number.build_eq] at built
  cases checked : number.check with
  | error cause => simp [checked, Except.map] at built
  | ok _ =>
      rw [checked] at built
      cases built
      refine ⟨_, Number.exists_completions input _ _, fun world worlds => ?_, fun world => ?_⟩
      · let grammar : Grammar H := { parser := number.parser options, holder }
        obtain ⟨answers, gives, pulled⟩ :=
          Cursor.pullIn_ofRun (grammar.results input {} world).result worlds world
        obtain ⟨results, rfl, proposed⟩ := proposals_of_gives offers least greatest enabled
          placeholder requiresInput ⟨_, ⟨world, rfl⟩, gives⟩
        refine ⟨results, proposed, ?_⟩
        have parsed : (grammar.parse input {} world).result =
            .ofRun (grammar.results input {} world).result := by
          simp [Grammar.parse, Action.map_def]
        rw [parsed, pulled]
        simp only [List.getElem?_map]
      · exact Grammar.parseAll_of_gives (fun answers gives =>
          proposals_of_gives offers least greatest enabled placeholder requiresInput gives) world

/-- The months of a year. -/
def months : Number :=
  { min := some 1.0, max := some 12.0, integersOnly := true, offersAll := true }

theorem parse_offers_integers_months : ∃ parser,
    (Rule.node (.number months) {} [] : Rule Host.quiet).build = .ok parser ∧
    Number.Completions ['1'] 1 12 [1, 10, 11, 12] ∧
    ∀ world, ∃ results,
      (Grammar.parseAll { parser, holder := .plain () } ['1'] {} world).result = .ok results ∧
        List.Forall₂ (Number.Proposes {} (.plain ()) ['1']) [1, 10, 11, 12] results := by
  obtain ⟨parser, built⟩ : ∃ parser,
      (Rule.node (.number months) {} [] : Rule Host.quiet).build = .ok parser := ⟨_, rfl⟩
  obtain ⟨integers, completions, _, answered⟩ :=
    parse_offers_integers rfl rfl rfl rfl rfl rfl built (.plain ()) ['1']
  have first : Decimal.integerAbove (Number.inOrder 1.0 12.0).1 = 1 := by decide +kernel
  have last : Decimal.integerBelow (Number.inOrder 1.0 12.0).2 = 12 := by decide +kernel
  rw [first, last] at completions
  have listed : (Number.fitting ['1'] 12 1).filter
      (fun integer => (Text.ofInt integer).BeginsWith ['1']) = [1, 10, 11, 12] := by decide +kernel
  have found := Number.exists_completions ['1'] 1 12
  rw [show ((12 : Int) - 1 + 1).toNat = 12 from rfl, listed] at found
  obtain rfl := completions.unique found
  exact ⟨parser, built, completions, answered⟩

end Grammar

end Typeahead
