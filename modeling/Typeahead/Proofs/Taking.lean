import Typeahead.Proofs.Numbers
import Typeahead.Proofs.Text.Numerals

namespace Typeahead

/-! Numbers that are typed.

A number that offers nothing takes the longest numeral that opens the input, with the value
that the numeral has in decimal notation.  Where that value is refused, no shorter numeral
is tried. -/

/-- An owner that keeps the number that was found last. -/
abbrev Host.measures : Host := ⟨Unit, Option Float, Unit, Unit⟩

namespace Number

variable {H : Host} {number : Number} {options : RuleOptions H} {settings : Settings H}
  {branch : Branch H} {items : List (Item H)}

/-- A value within the bounds, which is not negative where negative ones are refused. -/
structure Admits (number : Number) (value : Float) : Prop where
  above : ∀ low, number.min = some low → low ≤ value
  below : ∀ high, number.max = some high → value ≤ high
  negative : number.refuseNegative = true → ¬ value < 0.0

theorem accepts_iff {value : Float} : number.accepts value = true ↔ number.Admits value := by
  have each : number.accepts value = true ↔
      (number.refuseNegative = true → ¬ value < 0.0) ∧
        (∀ low, number.min = some low → low ≤ value) ∧
          ∀ high, number.max = some high → value ≤ high := by
    simp [accepts, Option.all_eq_true, and_assoc, ← Bool.not_eq_true, imp_iff_not_or]
  rw [each]
  constructor
  · intro admitted
    obtain ⟨negative, above, below⟩ := admitted
    exact ⟨above, below, negative⟩
  · intro admits
    exact ⟨admits.negative, admits.above, admits.below⟩

theorem gives_unread (unread : Text.Numeral.leading? number.integersOnly branch.input = none)
    (gives : (number.readStep settings branch).Gives items) : items = [] := by
  simp only [readStep, unread] at gives
  exact Run.gives_empty (Action.gives_pure gives)

theorem gives_refused {numeral : Text.Numeral}
    (found : Text.Numeral.leading? number.integersOnly branch.input = some numeral)
    (refused : number.accepts numeral.value = false)
    (gives : (number.readStep settings branch).Gives items) : items = [] := by
  simp only [readStep, found, refused, if_neg Bool.false_ne_true] at gives
  exact Run.gives_empty (Action.gives_pure gives)

/-- What a number that offers nothing yields is what it reads. -/
theorem gives_start {children : List (Rule H)} {parser : Parser H}
    (plain : number.offersAll = false) (enabled : options.enabled (.number number) = true)
    (placeholder : options.placeholder = none) (requiresInput : options.requiresInput = false)
    (built : (Rule.node (.number number) options children).build = .ok parser)
    (unfinished : branch.isFinished = false) (gives : (parser.start branch).Gives items) :
    ∃ parsers inner,
      (number.readStep (options.settings parsers) (branch.pushStack "number")).Gives inner ∧
        items = inner.map (·.map Branch.popStack) := by
  obtain ⟨parsers, _, made⟩ := Rule.build_eq_ok built
  obtain ⟨prepared, _, completed, same⟩ := Matcher.build_eq_ok made
  cases completed
  subst same
  rw [enabled] at gives
  obtain ⟨inner, given, same⟩ := Parser.gives_around unfinished placeholder requiresInput gives
  simp only [Kind.matcher, matcher, plain, if_neg Bool.false_ne_true] at given
  exact ⟨parsers, inner, given, same⟩

/-- A number takes the longest numeral in front of it or nothing at all: nothing where no
lead of the input is a numeral, and nothing where the value of the longest one is refused. -/
theorem start_takes_longest {children : List (Rule H)} {parser : Parser H}
    (plain : number.offersAll = false) (enabled : options.enabled (.number number) = true)
    (placeholder : options.placeholder = none) (requiresInput : options.requiresInput = false)
    (built : (Rule.node (.number number) options children).build = .ok parser)
    (reached : branch.Reachable) (unfinished : branch.isFinished = false)
    (gives : (parser.start branch).Gives items) :
    ((∀ lead, lead <+: branch.input → ¬ Text.Numeral.Spells number.integersOnly lead) →
      items = []) ∧
    ∀ lead, Text.Numeral.IsLongest number.integersOnly branch.input lead →
      let value := Text.Numeral.decimalValue (lead.replace ',' '.')
      ((∃ next, items = [.ok next] ∧ Takes options branch lead value next) ↔
        number.Admits value) ∧
      (¬ number.Admits value → items = []) := by
  obtain ⟨parsers, inner, read, same⟩ :=
    gives_start plain enabled placeholder requiresInput built unfinished gives
  constructor
  · intro silent
    have unread : Text.Numeral.leading? number.integersOnly (branch.pushStack "number").input =
        none := Text.Numeral.leading?_eq_none_of_silent silent
    rw [same, gives_unread unread read, List.map_nil]
  · intro lead longest value
    obtain ⟨numeral, found, spelled⟩ : ∃ numeral,
        Text.Numeral.leading? number.integersOnly (branch.pushStack "number").input =
          some numeral ∧ numeral.text = lead := Text.Numeral.leading?_of_isLongest longest
    have worth : numeral.value = value := by
      rw [Text.Numeral.value_eq (Text.Numeral.formed_of_leading? found), spelled]
    have refuses : ¬ number.Admits value → items = [] := by
      intro refused
      have declined : number.accepts numeral.value = false := by
        rw [worth, ← Bool.not_eq_true, accepts_iff]
        exact refused
      rw [same, gives_refused found declined read, List.map_nil]
    have takes : number.Admits value →
        ∃ next, items = [.ok next] ∧ Takes options branch lead value next := by
      intro admits
      have left : branch.input ≠ [] := by
        obtain ⟨leads, nonempty⟩ := Text.Numeral.leading?_prefix found
        intro used
        exact nonempty (List.prefix_nil.mp (used ▸ leads))
      have unsuggested := Branch.noSuggestion (.reachable reached) left
      have accepted : number.accepts numeral.value = true := by rwa [worth, accepts_iff]
      obtain ⟨next, only, taken⟩ := gives_readStep found accepted unsuggested read
      rw [worth, spelled] at taken
      exact ⟨next.popStack, by rw [same, only]; rfl, taken.popStack⟩
    refine ⟨⟨fun answered => ?_, takes⟩, refuses⟩
    obtain ⟨next, only, _⟩ := answered
    by_contra refused
    rw [refuses refused] at only
    contradiction

/-- The handler that keeps every number. -/
def keepNumber (emission : Emission Host.measures) (_ : Option Float) :
    Action Host.measures (Option (Option Float)) :=
  match emission with
  | .number found => return some (some found)
  | .text _ | .value _ => return none

def keeping : RuleOptions Host.measures := { onEmission := some keepNumber }

def temperature : Number := { min := some (-20.0), max := some 45.0 }

/-- Behind a text, in front of a decimal number with more places than one can have. -/
def outdoors : Branch Host.measures where
  given := "at -2,5.7".toList
  holder := .plain none
  data := none
  parts := [{ content := "at ".toList, kind := .input }]
  consumed := 3

theorem start_takes_longest_temperature : ∃ parser items next,
    (Rule.node (.number temperature) keeping []).build = .ok parser ∧
    outdoors.Reachable ∧ outdoors.isFinished = false ∧ (parser.start outdoors).Gives items ∧
    Text.Numeral.IsLongest false outdoors.input "-2,5".toList ∧
    temperature.Admits (Text.Numeral.decimalValue "-2.5".toList) ∧ items = [.ok next] ∧
    Takes keeping outdoors "-2,5".toList (Text.Numeral.decimalValue "-2.5".toList) next ∧
    next.data = some (Text.Numeral.decimalValue "-2.5".toList) := by
  obtain ⟨parser, built⟩ : ∃ parser,
      (Rule.node (.number temperature) keeping []).build = .ok parser := ⟨_, rfl⟩
  have reached : outdoors.Reachable :=
    ⟨"at -2,5.7".toList, .plain none, (), [.add { content := "at ".toList, kind := .input }], rfl⟩
  have gives := Action.gives_toList (parser.start outdoors) () ()
  have found : Text.Numeral.leading? false outdoors.input =
      some { negative := true, whole := ['2'], fraction := some (',', ['5']) } := by decide
  have longest : Text.Numeral.IsLongest false outdoors.input "-2,5".toList :=
    Text.Numeral.isLongest_of_leading? found
  have admits : temperature.Admits (Text.Numeral.decimalValue "-2.5".toList) := by
    constructor
    · intro low least
      cases least
      decide +kernel
    · intro high greatest
      cases greatest
      decide +kernel
    · intro refused
      contradiction
  obtain ⟨_, takes⟩ := start_takes_longest rfl rfl rfl rfl built reached rfl gives
  obtain ⟨next, only, taken⟩ := (takes _ longest).1.mpr admits
  obtain ⟨answer, answered, kept⟩ := taken.handed
  obtain ⟨world, same⟩ := answered
  subst same
  exact ⟨parser, _, next, built, reached, rfl, gives, longest, admits, only, taken, kept⟩

end Number

end Typeahead
