import Mathlib.Data.List.TakeWhile
import Typeahead.Grammar
import Typeahead.Proofs.Branch.Reading
import Typeahead.Proofs.Decimal.Integers
import Typeahead.Proofs.Tame.Leaves

namespace Typeahead

/-! Numbers that are offered, and numbers that are typed.

A number that offers the integers between its bounds compares texts and reads no
numerals.  What it offers is read by the number that offers nothing, with the bounds
in order, once it is typed in full. -/

variable {H : Host}

namespace Text.Numeral

def ofInt (integer : Int) : Numeral where
  negative := integer < 0
  whole := Nat.toDigits 10 integer.natAbs
  fraction := none

theorem text_ofInt (integer : Int) : (ofInt integer).text = Text.ofInt integer := by
  cases integer with
  | ofNat magnitude => simp [ofInt, text, Text.ofInt]
  | negSucc below => simp [ofInt, text, Text.ofInt, Int.natAbs]

theorem value_ofInt (integer : Int) : (ofInt integer).value = Decimal.ofInt integer := by
  have digits : digitsValue (Nat.toDigits 10 integer.natAbs) = integer.natAbs := by
    rw [digitsValue, ← Nat.ofDigitChars_eq_foldl, Nat.ofDigitChars_ten_toDigits]
  simp only [value, ofInt, digits, Decimal.ofInt]

/-- The whole text of an integer is one numeral. -/
theorem leading?_ofInt (integer : Int) :
    leading? true (Text.ofInt integer) = some (ofInt integer) := by
  have digits : ∀ magnitude, (Nat.toDigits 10 magnitude).takeWhile Char.isDigit =
      Nat.toDigits 10 magnitude := fun magnitude => List.takeWhile_eq_self_iff.mpr fun _ member =>
    Nat.isDigit_of_mem_toDigits (by decide) (by decide) member
  cases integer with
  | ofNat magnitude =>
      have unsigned : ((Nat.toDigits 10 magnitude).head? == some '-') = false := by
        refine beq_eq_false_iff_ne.mpr fun minus => ?_
        have digit : Char.isDigit '-' = true :=
          Nat.isDigit_of_mem_toDigits (by decide) (by decide) (List.mem_of_mem_head? minus)
        contradiction
      simp [leading?, Text.ofInt, ofInt, unsigned, digits, Nat.toDigits_ne_nil]
  | negSucc below => simp [leading?, Text.ofInt, ofInt, digits, Nat.toDigits_ne_nil, Int.natAbs]

end Text.Numeral

/-- What an emission leaves of the owner's data. -/
def RuleOptions.Emits (options : RuleOptions H) (emission : Emission H) (before after : H.Data) :
    Prop :=
  match options.onEmission with
  | none => after = before
  | some handler => ∃ answer, (handler emission before).Results answer ∧ after = answer.getD before

theorem RuleOptions.emits_of_emit {options : RuleOptions H} {children : List (Parser H)}
    {branch next : Branch H} {emission : Emission H}
    (emitted : ((options.settings children).emit branch emission).Results next) :
    ∃ data, options.Emits emission branch.data data ∧ next = { branch with data } := by
  rw [Settings.emit] at emitted
  unfold Emits
  cases handled : options.onEmission with
  | none =>
      simp only [settings, handled] at emitted
      exact ⟨branch.data, rfl, Action.results_pure emitted⟩
  | some handler =>
      simp only [settings, handled] at emitted
      obtain ⟨answer, answered, given⟩ := Action.results_bind emitted
      refine ⟨answer.getD branch.data, ⟨answer, answered, rfl⟩, ?_⟩
      cases answer with
      | none => exact Action.results_pure given
      | some data => exact Action.results_pure given

namespace Number

/-- Two bounds in order. -/
def inOrder (bound other : Float) : Float × Float :=
  if bound ≤ other then (bound, other) else (other, bound)

/-- The number that offers nothing between two bounds. -/
def between (number : Number) (low high : Float) : Number :=
  { number with min := some low, max := some high, offersAll := false }

/-- Typing a line in full is answered by one result, and the value is handed to the owner. -/
def Accepts (number : Number) (options : RuleOptions H) (holder : Holder H) (line : Text)
    (value : Float) : Prop :=
  ∃ parser, (Rule.node (.number number) options []).build = .ok parser ∧
    ∀ world, ∃ accepted start,
      ((Grammar.parseAll { parser, holder } line {}) world).result = .ok [accepted] ∧
      accepted.input = [] ∧
      accepted.parts = [{ content := line, kind := .input, marker := options.marker }] ∧
      holder.init.Results start ∧ options.Emits (.number value) start accepted.data

/-- A result of a number that offers integers: it is the text of an integer between the
bounds, which the number without offers accepts there, and if it was typed in full its
value was handed to the owner. -/
structure Offers (number : Number) (options : RuleOptions H) (holder : Holder H)
    (low high : Float) (integer : Int) (result : ParseResult H) : Prop where
  spelled : result.spelled = Text.ofInt integer
  above : low ≤ Decimal.ofInt integer
  below : Decimal.ofInt integer ≤ high
  accepted : (number.refuseNegative = true → 0 ≤ integer) →
    (number.between low high).Accepts options holder result.spelled (Decimal.ofInt integer)
  handed : ∃ start copied, holder.init.Results start ∧ (holder.copy start).Results copied ∧
    if result.parts.any (·.kind == .suggestion) then result.data = copied
    else options.Emits (.number (Decimal.ofInt integer)) copied result.data

variable {number : Number} {bound other low high : Float} {options : RuleOptions H}

theorem integersBetween_eq (bound other : Float) : integersBetween bound other =
    (Decimal.integerAbove (inOrder bound other).1, Decimal.integerBelow (inOrder bound other).2) :=
  rfl

theorem inOrder_numbers (first : bound.isNaN = false) (second : other.isNaN = false) :
    (inOrder bound other).1.isNaN = false ∧ (inOrder bound other).2.isNaN = false := by
  unfold inOrder
  split
  · exact ⟨first, second⟩
  · exact ⟨second, first⟩

/-- The integers that are offered are between the bounds, as doubles. -/
theorem between_of_offered {integer : Int} (first : bound.isNaN = false)
    (second : other.isNaN = false)
    (low_within : (inOrder bound other).1 ≤ Decimal.ofInt Decimal.greatestInteger)
    (high_within : Decimal.ofInt Decimal.leastInteger ≤ (inOrder bound other).2)
    (behind : (integersBetween bound other).1 ≤ integer)
    (ahead : integer ≤ (integersBetween bound other).2) :
    (inOrder bound other).1 ≤ Decimal.ofInt integer ∧
      Decimal.ofInt integer ≤ (inOrder bound other).2 := by
  obtain ⟨low_number, high_number⟩ := inOrder_numbers first second
  rw [integersBetween_eq] at behind ahead
  have least : Decimal.leastInteger ≤ integer :=
    Int.le_trans (Decimal.leastInteger_le_integerAbove low_number) behind
  have greatest : integer ≤ Decimal.greatestInteger :=
    Int.le_trans ahead (Decimal.integerBelow_le_greatestInteger high_number)
  exact ⟨Decimal.le_of_integerAbove_le low_number low_within greatest behind,
    Decimal.le_of_le_integerBelow high_number high_within least ahead⟩

theorem accepts_between {value : Float} (above : low ≤ value) (below : value ≤ high)
    (negative : number.refuseNegative = true → ¬ value < 0.0) :
    (number.between low high).accepts value = true := by
  cases refused : number.refuseNegative with
  | false => simp [accepts, between, refused, above, below]
  | true => simp [accepts, between, refused, above, below, negative refused]

/-- The parser of a number. -/
def parser (number : Number) (options : RuleOptions H) : Parser H :=
  .around "number" (options.enabled (.number number)) (options.settings [])
    (if number.offersAll then number.offerStep (options.settings [])
      else number.readStep (options.settings []))

theorem build_eq : (Rule.node (.number number) options []).build =
    number.check.map fun _ => number.parser options := by
  cases checked : number.check with
  | error cause =>
    simp [Rule.build, Rule.buildAll, Kind.build, Matcher.build, Kind.matcher, matcher, checked]
    rfl
  | ok _ =>
    simp [Rule.build, Rule.buildAll, Kind.build, Matcher.build, Kind.matcher, matcher, checked]
    rfl

section Typed

variable {branch : Branch H} {integer : Int} {items : List (Item H)}

/-- The branch behind a numeral, once the value was handed to the owner: the numeral is its last
part, and it is all that is covered besides. -/
structure Takes (options : RuleOptions H) (branch : Branch H) (numeral : Text) (value : Float)
    (next : Branch H) : Prop where
  split : branch.input = numeral ++ next.input
  taken : next = { branch with
    parts := branch.parts ++ [{ content := numeral, kind := .input, marker := options.marker }]
    consumed := branch.consumed + numeral.byteSize
    data := next.data }
  handed : options.Emits (.number value) branch.data next.data

theorem Takes.popStack {name : String} {numeral : Text} {value : Float} {next : Branch H}
    (takes : Takes options (branch.pushStack name) numeral value next) :
    Takes options branch numeral value next.popStack where
  split := takes.split
  taken := by
    rw [takes.taken]
    simp [Branch.pushStack, Branch.popStack]
  handed := takes.handed

/-- A numeral in front of a number is taken whole if its value is accepted. -/
theorem gives_readStep {children : List (Parser H)} {numeral : Text.Numeral}
    (found : Text.Numeral.leading? number.integersOnly branch.input = some numeral)
    (accepted : number.accepts numeral.value = true)
    (unsuggested : branch.hasKind .suggestion = false)
    (gives : (number.readStep (options.settings children) branch).Gives items) :
    ∃ next, items = [.ok next] ∧ Takes options branch numeral.text numeral.value next := by
  obtain ⟨⟨rest, split⟩, nonempty⟩ := Text.Numeral.leading?_prefix found
  have added : branch.add { content := numeral.text, kind := .input, marker := options.marker } =
      .ok (branch.read options.marker numeral.text numeral.text) :=
    Branch.add_eq_ok_iff.mpr (.covering nonempty (.inl ⟨rfl, unsuggested⟩) split.symm (.refl _))
  have marker : (options.settings children).marker = options.marker := rfl
  simp only [readStep, found, accepted, if_true, marker, added, Settings.yieldExtended] at gives
  obtain ⟨next, emitted, given⟩ := Action.gives_bind gives
  obtain ⟨data, emits, rfl⟩ := RuleOptions.emits_of_emit emitted
  have left : (branch.read options.marker numeral.text numeral.text).input = rest :=
    (Branch.consumed_input nonempty split.symm).1
  refine ⟨_, Run.gives_one (Action.gives_pure given), ?_, rfl, emits⟩
  change branch.input = numeral.text ++ (branch.read options.marker _ numeral.text).input
  rw [left, split]

/-- An integer that a number accepts is read when it is typed in full. -/
theorem accepts_typed (accepted : number.accepts (Decimal.ofInt integer) = true)
    (plain : number.offersAll = false) (integers : number.integersOnly = true)
    (enabled : options.enabled (.number number) = true) (placeholder : options.placeholder = none)
    (requiresInput : options.requiresInput = false) (holder : Holder H) :
    number.Accepts options holder (Text.ofInt integer) (Decimal.ofInt integer) := by
  have built : (Rule.node (.number number) options []).build = .ok (number.parser options) := by
    simp [build_eq, check, plain, Except.map]
  have answers : ∀ answers,
      (Grammar.results { parser := number.parser options, holder } (Text.ofInt integer) {}).Gives
        answers →
      ∃ results : List (ParseResult H), answers = results.map .ok ∧
        ∃ accepted start, results = [accepted] ∧ accepted.input = [] ∧
          accepted.parts =
            [{ content := Text.ofInt integer, kind := .input, marker := options.marker }] ∧
          holder.init.Results start ∧
          options.Emits (.number (Decimal.ofInt integer)) start accepted.data := by
    intro answers gives
    obtain ⟨root, items, rooted, given, rfl⟩ := Grammar.gives_results gives
    obtain ⟨start, began, rfl⟩ := Branch.root_begins rooted
    rw [parser, enabled, plain, if_neg Bool.false_ne_true] at given
    obtain ⟨inner, inside, rfl⟩ := Parser.gives_around rfl placeholder requiresInput given
    have found : Text.Numeral.leading? number.integersOnly
        (Branch.input (Branch.pushStack { given := Text.ofInt integer, holder, data := start }
          "number")) = some (.ofInt integer) := by
      rw [Branch.input_fresh, integers]
      exact Text.Numeral.leading?_ofInt integer
    obtain ⟨next, rfl, takes⟩ :=
      gives_readStep found (by rwa [Text.Numeral.value_ofInt]) rfl inside
    rw [Text.Numeral.text_ofInt, Text.Numeral.value_ofInt] at takes
    have split : Text.ofInt integer = Text.ofInt integer ++ next.input := by
      rw [← takes.split, Branch.input_fresh]
    have left : next.popStack.input = [] := List.self_eq_append_right.mp split
    have used : next.popStack.hasInput = false := Branch.hasInput_eq_false_iff.mpr left
    refine ⟨[next.popStack.toResult], ?_, _, start, rfl, left, ?_, began, takes.handed⟩
    · simp [Except.map, ParseOptions.result?, used]
    · exact congrArg Branch.parts takes.taken
  refine ⟨_, built, fun world => ?_⟩
  obtain ⟨results, answered, accepted, start, rfl, left, parts, began, emits⟩ :=
    Grammar.parseAll_of_gives answers world
  exact ⟨accepted, start, answered, left, parts, began, emits⟩

end Typed

section Offered

variable {branch next : Branch H} {item : Item H} {integer : Int}

/-- What a result of an offered integer holds, and what it was handed to the owner for. -/
structure Shows (options : RuleOptions H) (integer : Int) (before : H.Data) (next : Branch H) :
    Prop where
  spelled : next.spelled = Text.ofInt integer
  offered : next.hasKind .suggestion = true → next.data = before
  typed : next.hasKind .suggestion = false →
    options.Emits (.number (Decimal.ofInt integer)) before next.data

/-- What the text of an integer that fits the input makes of a copy of the branch: it was
typed, whatever follows it, or it was begun. -/
inductive Fitted (options : RuleOptions H) (copy : Branch H) (integer : Int) : Branch H → Prop
  | typed {spelled rest : Text} {data : H.Data} (split : copy.input = spelled ++ rest)
      (alike : Text.Alike false spelled (Text.ofInt integer))
      (emits : options.Emits (.number (Decimal.ofInt integer)) copy.data data) :
      Fitted options copy integer
        { copy.read options.marker spelled (Text.ofInt integer) with data }
  | begun {typed pending : Text} (split : Text.ofInt integer = typed ++ pending)
      (left : pending ≠ []) (alike : Text.Alike false typed copy.input) :
      Fitted options copy integer (copy.offered options.marker typed pending)

theorem fitted_of_overlap {copy : Branch H} {overlap : Text.Overlap} {items : List (Item H)}
    (unsuggested : copy.hasKind .suggestion = false)
    (found : Text.overlap? false copy.input (Text.ofInt integer) = some overlap)
    (gives : ((options.settings []).yieldExtended (copy.addOverlap options.marker overlap)
      (if overlap.isFull then some (.number (Decimal.ofInt integer)) else none)).Gives items) :
    ∃ next, items = [.ok next] ∧ Fitted options copy integer next := by
  cases overlap with
  | full matched rest =>
      obtain ⟨spelled, split, alike, added⟩ :=
        Branch.addOverlap_full unsuggested (Text.ofInt_ne_nil integer) found options.marker
      rw [added] at gives
      obtain ⟨next, emitted, given⟩ := Action.gives_bind gives
      obtain ⟨data, emits, rfl⟩ := RuleOptions.emits_of_emit emitted
      exact ⟨_, Run.gives_one (Action.gives_pure given), .typed split alike emits⟩
  | begun typed pending =>
      obtain ⟨split, left, alike⟩ := Text.overlap?_eq_begun_iff.mp found
      have added := Branch.addOverlap_begun
        (fun suggested => absurd suggested (Bool.eq_false_iff.mp unsuggested)) found options.marker
      rw [added] at gives
      exact ⟨_, Run.gives_one (Action.gives_pure gives), .begun split left alike⟩

/-- An integer that fits the input is answered once, and any other not at all. -/
theorem gives_offer {items : List (Item H)} (unsuggested : branch.hasKind .suggestion = false)
    (gives : (offer (options.settings []) branch integer).Gives items) :
    if fits branch.input integer then
      ∃ copy next, branch.fork.Results copy ∧ items = [.ok next] ∧
        Fitted options copy integer next
    else items = [] := by
  rw [offer] at gives
  split at gives
  · rename_i unlike
    simpa [fits, unlike] using Run.gives_empty (Action.gives_pure gives)
  · rename_i overlap found
    obtain ⟨copy, forked, extended⟩ := Action.gives_bind gives
    have untyped : copy.hasKind .suggestion = false := by
      obtain ⟨data, rfl⟩ := Branch.fork_results forked
      exact unsuggested
    rw [← Branch.fork_input forked] at found
    obtain ⟨next, same, fitted⟩ := fitted_of_overlap untyped found extended
    rw [fits, ← Branch.fork_input forked, found]
    exact ⟨copy, next, forked, same, fitted⟩

theorem Fitted.shows {copy : Branch H} (fitted : Fitted options copy integer next)
    (unsuggested : copy.hasKind .suggestion = false) (fresh : copy.parts = []) :
    Shows options integer copy.data next := by
  cases fitted with
  | @typed spelled rest data split alike emits =>
      refine ⟨?_, fun suggested => ?_, fun _ => emits⟩
      · simp only [Branch.spelled, Branch.read, Branch.withPart, fresh, List.nil_append]
        exact Part.spelled_singleton rfl
      · exact absurd ((Branch.read_hasKind spelled _).symm.trans suggested)
          (Bool.eq_false_iff.mp unsuggested)
  | begun split left alike =>
      refine ⟨?_, fun _ => rfl, fun typed => ?_⟩
      · simp only [Branch.spelled, Branch.offered, fresh, List.nil_append, Part.spelled_begun,
          split]
      · exact absurd (Branch.offered_hasKind _ _) (Bool.eq_false_iff.mp typed)

theorem shows_of_offer (unsuggested : branch.hasKind .suggestion = false)
    (fresh : branch.parts = [])
    (yielded : (offer (options.settings []) branch integer).Yields item) :
    ∃ next copied, item = .ok next ∧ (branch.holder.copy branch.data).Results copied ∧
      Shows options integer copied next := by
  obtain ⟨items, gives, member⟩ := yielded
  have answered := gives_offer unsuggested gives
  split at answered
  · obtain ⟨copy, next, forked, rfl, fitted⟩ := answered
    obtain ⟨copied, copies, rfl⟩ := Branch.fork_copies forked
    exact ⟨next, copied, List.mem_singleton.mp member, copies, fitted.shows unsuggested fresh⟩
  · rw [answered] at member
    contradiction

theorem yields_offerStep (least : number.min = some bound) (greatest : number.max = some other)
    (yielded : (number.offerStep (options.settings []) branch).Yields item) :
    ∃ integer, (integersBetween bound other).1 ≤ integer ∧
      integer ≤ (integersBetween bound other).2 ∧
      (offer (options.settings []) branch integer).Yields item := by
  simp only [offerStep, least, greatest] at yielded
  obtain ⟨integer, behind, ahead, offered⟩ := yields_offersFrom (Action.yields_pure yielded)
  exact ⟨integer, behind, by omega, offered⟩

end Offered

theorem check_eq_ok (checked : number.check = .ok ()) (offers : number.offersAll = true) :
    number.integersOnly = true := by
  cases integers : number.integersOnly with
  | true => rfl
  | false => simp [check, offers, integers] at checked

end Number

namespace Grammar

variable {number : Number} {bound other : Float} {options : RuleOptions H} {parser : Parser H}
  {holder : Holder H} {input : Text} {limits : ParseOptions}
  {cursor : Cursor H (Except Error (ParseResult H))} {result : ParseResult H}

/-- A number that offers the integers between its bounds offers what it would accept. -/
theorem parse_offers_accepted (offers : number.offersAll = true)
    (least : number.min = some bound) (greatest : number.max = some other)
    (bound_number : bound.isNaN = false) (other_number : other.isNaN = false)
    (low_within : (Number.inOrder bound other).1 ≤ Decimal.ofInt Decimal.greatestInteger)
    (high_within : Decimal.ofInt Decimal.leastInteger ≤ (Number.inOrder bound other).2)
    (enabled : ∀ kind, options.enabled kind = true) (placeholder : options.placeholder = none)
    (requiresInput : options.requiresInput = false)
    (built : (Rule.node (.number number) options []).build = .ok parser)
    (begun : (Grammar.parse { parser, holder } input limits).Results cursor)
    (yielded : cursor.Yields (.ok result)) :
    ∃ integer, number.Offers options holder (Number.inOrder bound other).1
      (Number.inOrder bound other).2 integer result := by
  rw [Number.build_eq] at built
  cases checked : number.check with
  | error cause => simp [checked, Except.map] at built
  | ok _ =>
      rw [checked] at built
      cases built
      have integers := Number.check_eq_ok checked offers
      obtain ⟨root, item, rooted, found, kept⟩ := yields_parse begun yielded
      obtain ⟨start, began, rfl⟩ := Branch.root_begins rooted
      obtain ⟨items, gives, member⟩ := found
      rw [Number.parser, enabled, offers, if_pos rfl] at gives
      obtain ⟨inner, inside, rfl⟩ := Parser.gives_around rfl placeholder requiresInput gives
      obtain ⟨found, among, rfl⟩ := List.mem_map.mp member
      obtain ⟨integer, behind, ahead, offered⟩ :=
        Number.yields_offerStep least greatest ⟨inner, inside, among⟩
      obtain ⟨next, copied, rfl, copies, shows⟩ := Number.shows_of_offer rfl rfl offered
      obtain ⟨above, below⟩ := Number.between_of_offered bound_number other_number low_within
        high_within behind ahead
      obtain ⟨final, same, rfl, _⟩ := result?_eq_ok kept
      cases same
      have line : next.popStack.toResult.spelled = Text.ofInt integer := shows.spelled
      refine ⟨integer, line, above, below, fun nonnegative => ?_, start, copied, began, copies, ?_⟩
      · rw [line]
        exact Number.accepts_typed
          (Number.accepts_between above below fun refused =>
            Decimal.not_ofInt_lt_zero (nonnegative refused))
          rfl integers (enabled _) placeholder requiresInput holder
      · split
        · next suggested => exact shows.offered suggested
        · next typed => exact shows.typed (Bool.eq_false_iff.mpr typed)

/-- The hours of a morning. -/
def hours : Number :=
  { min := some 8.0, max := some 12.0, integersOnly := true, offersAll := true }

theorem parse_offers_accepted_hours : ∃ parser cursor result,
    (Rule.node (.number hours) {} []).build = .ok parser ∧
    (Grammar.parse { parser, holder := .plain () : Grammar Host.quiet } ['1'] {}).Results cursor ∧
    cursor.Yields (.ok result) ∧ result.spelled = ['1', '0'] ∧
    ∃ integer, hours.Offers {} (.plain ()) (Number.inOrder 8.0 12.0).1
      (Number.inOrder 8.0 12.0).2 integer result := by
  obtain ⟨parser, built⟩ : ∃ parser,
      (Rule.node (.number hours) {} [] : Rule Host.quiet).build = .ok parser := ⟨_, rfl⟩
  have answers : (Rule.node (.number hours) {} [] : Rule Host.quiet).build.toOption.all
      (fun parser =>
        (((Grammar.parse { parser, holder := .plain () } ['1'] {}) ()).result.next
          ()).result.1.any fun answer =>
            answer.toOption.any (·.spelled = ['1', '0'])) = true := by decide +kernel
  rw [built] at answers
  obtain ⟨answer, answered, spelled⟩ := (Option.any_eq_true _ _).mp answers
  cases answer with
  | error cause => contradiction
  | ok result =>
      have yielded := Cursor.yields_next answered
      exact ⟨parser, _, result, built, ⟨(), rfl⟩, yielded, of_decide_eq_true spelled,
        parse_offers_accepted rfl rfl rfl (by decide +kernel) (by decide +kernel)
          (by decide +kernel) (by decide +kernel) (fun _ => rfl) rfl rfl built ⟨(), rfl⟩ yielded⟩

/-- The first offer for an empty input is the line, which the same number without offers
does not accept. -/
def OffersRefused (number : Number) (line : Text) : Prop :=
  ∃ parser cursor result, (Rule.node (.number number) {} []).build = .ok parser ∧
    (Grammar.parse { parser, holder := .plain () : Grammar Host.quiet } [] {}).Results cursor ∧
    cursor.Yields (.ok result) ∧ result.spelled = line ∧
    ∀ value, ¬ Number.Accepts { number with offersAll := false } ({} : RuleOptions Host.quiet)
      (.plain ()) line value

theorem offersRefused_of_answers {number : Number} {line : Text}
    (offered : (Rule.node (.number number) {} [] : Rule Host.quiet).build.toOption.any
      (fun parser => (((Grammar.parse { parser, holder := .plain () } [] {}) ()).result.next
        ()).result.1.any fun answer => answer.toOption.any (·.spelled = line)) = true)
    (refused : (Rule.node (.number { number with offersAll := false }) {} [] :
      Rule Host.quiet).build.toOption.all (fun parser =>
        ((Grammar.parseAll { parser, holder := .plain () } line {}) ()).result.toOption.all
          (·.isEmpty)) = true) : OffersRefused number line := by
  obtain ⟨parser, built, first⟩ := (Option.any_eq_true _ _).mp offered
  obtain ⟨answer, answered, found⟩ := (Option.any_eq_true _ _).mp first
  cases answer with
  | error cause => contradiction
  | ok result =>
      have made : (Rule.node (.number number) {} []).build = .ok parser := by
        cases build : (Rule.node (.number number) {} [] : Rule Host.quiet).build with
        | error cause => simp [build, Except.toOption] at built
        | ok other =>
            rw [build] at built
            cases built
            rfl
      refine ⟨parser, _, result, made, ⟨(), rfl⟩, Cursor.yields_next answered,
        of_decide_eq_true found, ?_⟩
      rintro value ⟨plain, built', answers⟩
      obtain ⟨accepted, _, collected, _⟩ := answers ()
      rw [built'] at refused
      simp [Except.toOption, collected] at refused

/-- Bounds in the wrong order are put in order for offers only. -/
theorem offers_refused :
    OffersRefused { min := some 2.0, max := some 1.0, integersOnly := true, offersAll := true }
      ['1'] :=
  offersRefused_of_answers (by decide +kernel) (by decide +kernel)

/-- Offers pass over two checks that typed numbers are put to: an integer is offered for a bound
beyond 64 bits, and a negative one where negative numbers are refused. -/
theorem offers_unchecked :
    OffersRefused
        { min := some 10000000000000000000.0, max := some 20000000000000000000.0,
          integersOnly := true, offersAll := true }
        "9223372036854775807".toList ∧
      OffersRefused
        { min := some (-1.0), max := some 1.0, refuseNegative := true, integersOnly := true,
          offersAll := true }
        ['-', '1'] :=
  ⟨offersRefused_of_answers (by decide +kernel) (by decide +kernel),
    offersRefused_of_answers (by decide +kernel) (by decide +kernel)⟩

end Grammar

end Typeahead
