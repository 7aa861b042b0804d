import Mathlib.Computability.RegularExpressions
import Mathlib.Data.List.TakeWhile
import Typeahead.Proofs.Text.Leads

namespace Typeahead.Text.Numeral

/-! Numerals as a regular language.

The scanner takes the longest lead of a text that is a numeral, and what it makes of it has
the value that the text has in decimal notation. -/

/-! ### The language -/

def oneOf (letters : List Char) : RegularExpression Char :=
  letters.foldr (fun letter others => .char letter + others) 0

def digits : RegularExpression Char :=
  let digit := oneOf ['0', '1', '2', '3', '4', '5', '6', '7', '8', '9']
  digit * digit.star

/-- The texts `-?[0-9]+([.,][0-9]+)?`, and only `-?[0-9]+` where integers are wanted. -/
def pattern (integersOnly : Bool) : RegularExpression Char :=
  (1 + .char '-') * (digits * if integersOnly then 1 else 1 + oneOf ['.', ','] * digits)

/-- A text that is a numeral from its first character to its last. -/
def Spells (integersOnly : Bool) (text : Text) : Prop := text ∈ (pattern integersOnly).matches'

/-- The longest lead of a text that is a numeral. -/
structure IsLongest (integersOnly : Bool) (text lead : Text) : Prop where
  leads : lead <+: text
  spells : Spells integersOnly lead
  longest : ∀ other, other <+: text → Spells integersOnly other → other.length ≤ lead.length

def IsDigits (text : Text) : Prop := text ≠ [] ∧ ∀ letter ∈ text, letter.isDigit = true

def FormedFraction (integersOnly : Bool) (fraction : Option (Char × Text)) : Prop :=
  ∀ separator places, fraction = some (separator, places) →
    integersOnly = false ∧ isSeparator separator = true ∧ IsDigits places

/-- A numeral with digits wherever there have to be some. -/
structure Formed (integersOnly : Bool) (numeral : Numeral) : Prop where
  whole : IsDigits numeral.whole
  fraction : FormedFraction integersOnly numeral.fraction

theorem isDigit_iff {letter : Char} : letter.isDigit = true ↔
    letter ∈ ['0', '1', '2', '3', '4', '5', '6', '7', '8', '9'] := by
  constructor
  · intro digit
    simp only [Char.isDigit, Bool.and_eq_true, decide_eq_true_eq] at digit
    have least : 48 ≤ letter.toNat := digit.1
    have greatest : letter.toNat ≤ 57 := digit.2
    have listed : ∀ place < 10, Char.ofNat (48 + place) ∈
        ['0', '1', '2', '3', '4', '5', '6', '7', '8', '9'] := by decide
    have found := listed (letter.toNat - 48) (by omega)
    rwa [Nat.add_sub_cancel' least, Char.ofNat_toNat] at found
  · intro listed
    have digits : ∀ other ∈ ['0', '1', '2', '3', '4', '5', '6', '7', '8', '9'],
        Char.isDigit other = true := by simp
    exact digits letter listed

theorem isSeparator_iff {letter : Char} :
    isSeparator letter = true ↔ letter ∈ ['.', ','] := by
  simp [isSeparator]

theorem mem_oneOf {letters : List Char} {text : Text} :
    text ∈ (oneOf letters).matches' ↔ ∃ letter ∈ letters, text = [letter] := by
  induction letters with
  | nil => simp [oneOf]
  | cons letter letters ih =>
      change text ∈ (RegularExpression.char letter + oneOf letters).matches' ↔ _
      rw [RegularExpression.matches'_add, Language.mem_add, ih,
        RegularExpression.matches'_char]
      change text = [letter] ∨ _ ↔ _
      simp

theorem mem_digits {text : Text} : text ∈ digits.matches' ↔ IsDigits text := by
  rw [digits, RegularExpression.matches'_mul, RegularExpression.matches'_star, Language.mem_mul]
  constructor
  · intro joined
    obtain ⟨first, one, others, more, rfl⟩ := joined
    obtain ⟨letter, listed, rfl⟩ := mem_oneOf.mp one
    obtain ⟨pieces, rfl, each⟩ := Language.mem_kstar.mp more
    refine ⟨by simp, fun other member => ?_⟩
    rcases List.mem_cons.mp member with rfl | inside
    · exact isDigit_iff.mpr listed
    · obtain ⟨piece, among, held⟩ := List.mem_flatten.mp inside
      obtain ⟨digit, known, rfl⟩ := mem_oneOf.mp (each piece among)
      rw [List.mem_singleton.mp held]
      exact isDigit_iff.mpr known
  · intro digits
    obtain ⟨nonempty, each⟩ := digits
    cases text with
    | nil => contradiction
    | cons letter others =>
        refine ⟨[letter], mem_oneOf.mpr ⟨letter, isDigit_iff.mp (each letter (by simp)), rfl⟩,
          others, Language.mem_kstar.mpr ⟨others.map fun other => [other], ?_, ?_⟩, rfl⟩
        · rw [← List.flatMap_def, List.flatMap_singleton']
        · intro piece member
          obtain ⟨other, among, rfl⟩ := List.mem_map.mp member
          have digit := each other (List.mem_cons_of_mem _ among)
          exact mem_oneOf.mpr ⟨other, isDigit_iff.mp digit, rfl⟩

def signText (negative : Bool) : Text := if negative then ['-'] else []

theorem mem_optional {expected : RegularExpression Char} {text : Text} :
    text ∈ (1 + expected).matches' ↔ text = [] ∨ text ∈ expected.matches' := by
  rw [RegularExpression.matches'_add, Language.mem_add, RegularExpression.matches'_epsilon,
    Language.mem_one]

theorem mem_sign {text : Text} :
    text ∈ (1 + RegularExpression.char '-').matches' ↔ ∃ negative, signText negative = text := by
  rw [mem_optional, Bool.exists_bool]
  exact or_congr eq_comm eq_comm

theorem mem_fraction {integersOnly : Bool} {text : Text} :
    text ∈ (if integersOnly then 1 else 1 + oneOf ['.', ','] * digits :
        RegularExpression Char).matches' ↔
      ∃ fraction, FormedFraction integersOnly fraction ∧ fractionText fraction = text := by
  have without : FormedFraction integersOnly none := by
    intro separator places found
    contradiction
  cases integersOnly with
  | true =>
      rw [if_pos rfl, RegularExpression.matches'_epsilon, Language.mem_one]
      constructor
      · intro empty
        exact ⟨none, without, empty.symm⟩
      · intro written
        obtain ⟨fraction, formed, rfl⟩ := written
        cases fraction with
        | none => rfl
        | some pair => exact absurd (formed pair.1 pair.2 rfl).1 (by decide)
  | false =>
      rw [if_neg (by decide), mem_optional, RegularExpression.matches'_mul, Language.mem_mul]
      constructor
      · intro optional
        rcases optional with rfl | ⟨first, one, places, more, rfl⟩
        · exact ⟨none, without, rfl⟩
        · obtain ⟨separator, listed, rfl⟩ := mem_oneOf.mp one
          refine ⟨some (separator, places), ?_, rfl⟩
          intro _ _ same
          cases same
          exact ⟨rfl, isSeparator_iff.mpr listed, mem_digits.mp more⟩
      · intro written
        obtain ⟨fraction, formed, rfl⟩ := written
        cases fraction with
        | none => exact .inl rfl
        | some pair =>
            obtain ⟨separator, places⟩ := pair
            obtain ⟨_, separates, digits⟩ := formed separator places rfl
            exact .inr ⟨[separator], mem_oneOf.mpr ⟨separator, isSeparator_iff.mp separates, rfl⟩,
              places, mem_digits.mpr digits, rfl⟩

theorem spells_iff {integersOnly : Bool} {text : Text} : Spells integersOnly text ↔
    ∃ numeral : Numeral, numeral.Formed integersOnly ∧ numeral.text = text := by
  rw [Spells, pattern, RegularExpression.matches'_mul, Language.mem_mul]
  constructor
  · intro joined
    obtain ⟨_, signed, _, unsigned, rfl⟩ := joined
    rw [RegularExpression.matches'_mul, Language.mem_mul] at unsigned
    obtain ⟨whole, front, _, behind, rfl⟩ := unsigned
    obtain ⟨negative, rfl⟩ := mem_sign.mp signed
    obtain ⟨fraction, formed, rfl⟩ := mem_fraction.mp behind
    exact ⟨⟨negative, whole, fraction⟩, ⟨mem_digits.mp front, formed⟩, text_eq _⟩
  · intro written
    obtain ⟨numeral, formed, rfl⟩ := written
    refine ⟨signText numeral.negative, mem_sign.mpr ⟨_, rfl⟩,
      numeral.whole ++ fractionText numeral.fraction, ?_, (text_eq numeral).symm⟩
    rw [RegularExpression.matches'_mul, Language.mem_mul]
    exact ⟨_, mem_digits.mpr formed.whole, _, mem_fraction.mpr ⟨_, formed.fraction, rfl⟩, rfl⟩

/-! ### The scanner -/

variable {integersOnly : Bool} {numeral other : Numeral} {text lead rest : Text}

theorem not_isDigit_of_isSeparator {letter : Char} (separates : isSeparator letter = true) :
    letter.isDigit = false := by
  have separators : ∀ other ∈ ['.', ','], Char.isDigit other = false := by simp
  exact separators letter (isSeparator_iff.mp separates)

theorem isDigits_takeWhile (nonempty : text.takeWhile Char.isDigit ≠ []) :
    IsDigits (text.takeWhile Char.isDigit) :=
  ⟨nonempty, fun _ member => List.mem_takeWhile_imp member⟩

theorem formedFraction_fraction? (text : Text) : FormedFraction false (fraction? text) := by
  intro separator places found
  cases text with
  | nil => contradiction
  | cons first others =>
      simp only [fraction?] at found
      split at found
      · rename_i opens
        cases found
        simp only [Bool.and_eq_true, Bool.not_eq_true', List.isEmpty_eq_false_iff] at opens
        exact ⟨rfl, opens.1, isDigits_takeWhile opens.2⟩
      · contradiction

theorem formed_of_leading? (found : leading? integersOnly text = some numeral) :
    numeral.Formed integersOnly := by
  dsimp only [leading?] at found
  generalize (if text.head? == some '-' then text.tail else text) = unsigned at found
  split at found
  · contradiction
  · rename_i nonempty
    cases found
    refine ⟨isDigits_takeWhile (by simpa using nonempty), ?_⟩
    cases integersOnly with
    | true =>
        intro separator places absent
        contradiction
    | false => exact formedFraction_fraction? _

theorem IsDigits.unsigned (digits : IsDigits text) (rest : Text) :
    ((text ++ rest).head? == some '-') = false := by
  obtain ⟨nonempty, each⟩ := digits
  cases text with
  | nil => contradiction
  | cons letter others =>
      refine beq_eq_false_iff_ne.mpr fun minus => ?_
      have digit := each letter List.mem_cons_self
      rw [Option.some.inj minus] at digit
      contradiction

theorem IsDigits.takeWhile_append (digits : IsDigits text) (rest : Text) :
    (text ++ rest).takeWhile Char.isDigit = text ++ rest.takeWhile Char.isDigit :=
  List.takeWhile_append_of_pos digits.2

/-- What is read behind the sign. -/
theorem leading?_signed (negative : Bool) {whole : Text} (digits : IsDigits whole) (rest : Text) :
    leading? integersOnly (signText negative ++ (whole ++ rest)) = some {
      negative, whole := whole ++ rest.takeWhile Char.isDigit
      fraction := if integersOnly then none else fraction? (rest.dropWhile Char.isDigit) } := by
  have unsigned := digits.unsigned rest
  have taken := digits.takeWhile_append rest
  have dropped : (whole ++ rest).dropWhile Char.isDigit = rest.dropWhile Char.isDigit :=
    List.dropWhile_append_of_pos digits.2
  cases negative with
  | true => simp [leading?, signText, taken, dropped, digits.1]
  | false =>
      generalize whole ++ rest = behind at unsigned taken dropped
      simp [leading?, signText, taken, dropped, digits.1, unsigned]

theorem length_text (numeral : Numeral) : numeral.text.length =
    (signText numeral.negative).length +
      (numeral.whole.length + (fractionText numeral.fraction).length) := by
  rw [text_eq, List.length_append, List.length_append]
  rfl

/-- In front of whatever follows it, a numeral is read to its end at least. -/
theorem exists_leading? (formed : other.Formed integersOnly) (rest : Text) :
    ∃ numeral, leading? integersOnly (other.text ++ rest) = some numeral ∧
      other.text.length ≤ numeral.text.length := by
  have split : other.text ++ rest = signText other.negative ++
      (other.whole ++ (fractionText other.fraction ++ rest)) := by
    rw [text_eq, List.append_assoc, List.append_assoc]
    rfl
  refine ⟨_, by rw [split, leading?_signed _ formed.whole], ?_⟩
  rw [length_text, length_text]
  cases fraction : other.fraction with
  | none =>
      simp only [fractionText, List.length_append, List.length_nil]
      omega
  | some pair =>
      obtain ⟨separator, places⟩ := pair
      obtain ⟨decimals, separates, digits⟩ := formed.fraction separator places fraction
      -- the separator ends the digits in front of it, and as many places follow at least
      have stops := not_isDigit_of_isSeparator separates
      have taken := digits.takeWhile_append rest
      simp [fractionText, stops, decimals, fraction?, separates, taken, digits.1]

theorem isLongest_of_leading? (found : leading? integersOnly text = some numeral) :
    IsLongest integersOnly text numeral.text where
  leads := by
    obtain ⟨leads, _⟩ := leading?_prefix found
    exact leads
  spells := spells_iff.mpr ⟨numeral, formed_of_leading? found, rfl⟩
  longest := by
    intro shorter leads spells
    obtain ⟨rest, rfl⟩ := leads
    obtain ⟨other, formed, rfl⟩ := spells_iff.mp spells
    obtain ⟨longer, found', length⟩ := exists_leading? formed rest
    rw [found] at found'
    cases found'
    exact length

theorem IsLongest.unique {other : Text} (longest : IsLongest integersOnly text lead)
    (longest' : IsLongest integersOnly text other) : lead = other := by
  have shorter := longest.longest other longest'.leads longest'.spells
  have longer := longest'.longest lead longest.leads longest.spells
  exact (List.prefix_of_prefix_length_le longest.leads longest'.leads longer).eq_of_length
    (Nat.le_antisymm longer shorter)

/-- The longest numeral is what the scanner finds. -/
theorem leading?_of_isLongest (longest : IsLongest integersOnly text lead) :
    ∃ numeral, leading? integersOnly text = some numeral ∧ numeral.text = lead := by
  obtain ⟨other, formed, spelled⟩ := spells_iff.mp longest.spells
  obtain ⟨rest, rfl⟩ := longest.leads
  obtain ⟨numeral, found, _⟩ := exists_leading? formed rest
  rw [spelled] at found
  exact ⟨numeral, found, (isLongest_of_leading? found).unique longest⟩

theorem leading?_eq_none_of_silent
    (silent : ∀ lead, lead <+: text → ¬ Spells integersOnly lead) :
    leading? integersOnly text = none := by
  cases found : leading? integersOnly text with
  | none => rfl
  | some numeral =>
      have longest := isLongest_of_leading? found
      exact absurd longest.spells (silent _ longest.leads)

/-! ### The value -/

/-- The double nearest to the number that a text spells with digits and at most one point. -/
def decimalValue (text : Text) : Float :=
  Decimal.nearest (text.head? == some '-') (digitsValue (text.filter Char.isDigit))
    (-((text.dropWhile (· != '.')).tail.length : Int))

theorem ne_of_isDigit {letter expected : Char} (digit : letter.isDigit = true)
    (other : expected.isDigit = false) : letter ≠ expected := by
  intro same
  rw [← same, digit] at other
  contradiction

theorem IsDigits.filter_eq (digits : IsDigits text) : text.filter Char.isDigit = text :=
  List.filter_eq_self.mpr digits.2

theorem decimalValue_signed (negative : Bool) {whole : Text} (digits : IsDigits whole)
    (rest : Text) : decimalValue (signText negative ++ (whole ++ rest)) =
      Decimal.nearest negative (digitsValue (whole ++ rest.filter Char.isDigit))
        (-((rest.dropWhile (· != '.')).tail.length : Int)) := by
  have sign : ((signText negative ++ (whole ++ rest)).head? == some '-') = negative := by
    cases negative with
    | true => rfl
    | false => exact digits.unsigned rest
  have silent : (signText negative).filter Char.isDigit = [] := by cases negative <;> rfl
  have pointless : ∀ letter ∈ signText negative ++ whole, (letter != '.') = true := by
    intro letter member
    rcases List.mem_append.mp member with front | behind
    · cases negative <;> simp_all [signText]
    · exact bne_iff_ne.mpr (ne_of_isDigit (digits.2 letter behind) rfl)
  rw [decimalValue, sign, List.filter_append, List.filter_append, silent, digits.filter_eq,
    List.nil_append, ← List.append_assoc, List.dropWhile_append_of_pos pointless]

/-- With a point for its comma, the text of a numeral has the value of the numeral. -/
theorem value_eq (formed : numeral.Formed integersOnly) :
    numeral.value = decimalValue (numeral.text.replace ',' '.') := by
  have plain : ',' ∉ signText numeral.negative ++ numeral.whole := by
    intro member
    rcases List.mem_append.mp member with front | behind
    · cases negative : numeral.negative <;> simp [negative, signText] at front
    · exact ne_of_isDigit (formed.whole.2 _ behind) rfl rfl
  have split : numeral.text =
      signText numeral.negative ++ numeral.whole ++ fractionText numeral.fraction := by
    rw [text_eq, List.append_assoc]
    rfl
  rw [split, List.replace_append_right plain, List.append_assoc, decimalValue_signed _ formed.whole,
    value]
  cases fraction : numeral.fraction with
  | none => simp [fractionText]
  | some pair =>
      obtain ⟨separator, places⟩ := pair
      obtain ⟨_, separates, digits⟩ := formed.fraction separator places fraction
      have replaced : (separator :: places).replace ',' '.' = '.' :: places := by
        have comma : ',' ∉ places := fun member => ne_of_isDigit (digits.2 _ member) rfl rfl
        rcases List.mem_pair.mp (isSeparator_iff.mp separates) with rfl | rfl
        · exact List.replace_of_not_mem (by simp [comma])
        · exact List.replace_cons_self
      have pointed : ('.' :: places).filter Char.isDigit = places := by
        rw [List.filter_cons_of_neg (by decide), digits.filter_eq]
      simp only [fractionText, replaced, pointed]
      rfl

end Typeahead.Text.Numeral
