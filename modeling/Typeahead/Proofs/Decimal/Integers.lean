import Typeahead.Proofs.Decimal.Doubles

namespace Typeahead.Decimal

/-! Integers as doubles.

Rounding an integer never passes a double: a double up to the integer is up to
the double nearest to it, and so is a double from it on. -/

section Quotients

variable {numerator denominator quotient : Nat}

theorem le_roundedQuotient (positive : 0 < denominator)
    (fits : quotient * denominator ≤ numerator) :
    quotient ≤ roundedQuotient numerator denominator := by
  have below : quotient ≤ numerator / denominator := (Nat.le_div_iff_mul_le positive).mpr fits
  unfold roundedQuotient
  dsimp only
  split <;> omega

theorem roundedQuotient_le (positive : 0 < denominator)
    (covers : numerator ≤ quotient * denominator) :
    roundedQuotient numerator denominator ≤ quotient := by
  have below : numerator / denominator ≤ quotient := by
    rw [← Nat.mul_div_cancel quotient positive]
    exact Nat.div_le_div_right covers
  rcases Nat.lt_or_eq_of_le below with less | same
  · unfold roundedQuotient
    dsimp only
    split <;> omega
  · have whole := Nat.div_add_mod numerator denominator
    rw [same, Nat.mul_comm] at whole
    have even : numerator % denominator = 0 := by omega
    simp [roundedQuotient, even, same, positive.ne]

end Quotients

/-- What a magnitude stands for is on the grid of a place, or below its long significands. -/
theorem units_on_grid (magnitude place : Nat) :
    (∃ significand, units magnitude = significand * 2 ^ place) ∨
      units magnitude < 2 ^ 52 * 2 ^ place := by
  obtain ⟨own, significand, placed⟩ := exists_placed magnitude
  rcases Nat.lt_or_ge own place with earlier | later
  · exact .inr (placed.units_lt earlier)
  · refine .inl ⟨significand * 2 ^ (own - place), ?_⟩
    rw [placed.units_eq, Nat.mul_assoc, ← Nat.pow_add, Nat.sub_add_cancel later]

/-- A quotient that stands for an integer at the place of its leading bit. -/
structure Scaled (integer numerator denominator place : Nat) : Prop where
  positive : 0 < denominator
  integer_eq : numerator * 2 ^ place = integer * one * denominator
  long : 2 ^ 52 * denominator ≤ numerator
  short : numerator < 2 ^ 53 * denominator

namespace Scaled

variable {integer numerator denominator place significand : Nat}

theorem units_eq (scaled : Scaled integer numerator denominator place) :
    units (place * 2 ^ 52 + roundedQuotient numerator denominator) =
      roundedQuotient numerator denominator * 2 ^ place :=
  units_at (roundedQuotient_le scaled.positive scaled.short.le)
    (.inr (le_roundedQuotient scaled.positive scaled.long))

theorem le_iff (scaled : Scaled integer numerator denominator place) :
    significand * denominator ≤ numerator ↔ significand * 2 ^ place ≤ integer * one := by
  rw [← Nat.mul_le_mul_right_iff (Nat.two_pow_pos place), scaled.integer_eq,
    Nat.mul_right_comm significand, Nat.mul_le_mul_right_iff scaled.positive]

theorem ge_iff (scaled : Scaled integer numerator denominator place) :
    numerator ≤ significand * denominator ↔ integer * one ≤ significand * 2 ^ place := by
  rw [← Nat.mul_le_mul_right_iff (Nat.two_pow_pos place), scaled.integer_eq,
    Nat.mul_right_comm significand, Nat.mul_le_mul_right_iff scaled.positive]

end Scaled

theorem two_pow_add (place : Nat) : 2 ^ (1074 + place) = one * 2 ^ place := by
  unfold one
  generalize 1074 = places
  exact Nat.pow_add 2 places place

theorem two_pow_split {integer log : Nat} (place : Nat) (lower : 2 ^ log ≤ integer) :
    2 ^ (log - place) * 2 ^ place ≤ integer * 2 ^ (place - log) := by
  calc 2 ^ (log - place) * 2 ^ place = 2 ^ log * 2 ^ (place - log) := by
        rw [← Nat.pow_add, ← Nat.pow_add]
        congr 1
        omega
    _ ≤ integer * 2 ^ (place - log) := Nat.mul_le_mul_right _ lower

theorem lastPlace_integer {integer : Nat} (positive : 0 < integer) :
    lastPlace integer 1 = (integer.log2 : Int) - 52 := by
  have reached := two_pow_split 53 (Nat.log2_self_le positive.ne')
  have single : Nat.log2 1 = 0 := by decide
  have up : ((integer.log2 : Int) - (0 : Nat) - 53).toNat = integer.log2 - 53 := by omega
  have down : (-((integer.log2 : Int) - (0 : Nat) - 53)).toNat = 53 - integer.log2 := by omega
  simp only [lastPlace, leastExponent, Nat.shiftLeft_eq, single]
  rw [up, down, Nat.one_mul, if_neg (Nat.not_lt.mpr reached)]
  omega

theorem scaled_at {integer log : Nat} (lower : 2 ^ log ≤ integer)
    (upper : integer < 2 ^ (log + 1)) :
    Scaled integer (integer * 2 ^ (52 - log)) (2 ^ (log - 52)) (log + 1022) where
  positive := Nat.two_pow_pos _
  integer_eq := by
    rw [Nat.mul_assoc, Nat.mul_assoc, ← Nat.pow_add, ← two_pow_add]
    congr 2
    omega
  long := by
    rw [Nat.mul_comm (2 ^ 52)]
    exact two_pow_split 52 lower
  short := by
    calc integer * 2 ^ (52 - log) < 2 ^ (log + 1) * 2 ^ (52 - log) :=
          Nat.mul_lt_mul_of_pos_right upper (Nat.two_pow_pos _)
      _ = 2 ^ 53 * 2 ^ (log - 52) := by
          rw [← Nat.pow_add, ← Nat.pow_add]
          congr 1
          omega

theorem exists_scaled {integer : Nat} (positive : 0 < integer) :
    ∃ numerator denominator place, Scaled integer numerator denominator place ∧
      quotientBits integer 1 =
        min (place * 2 ^ 52 + roundedQuotient numerator denominator) infinite := by
  have scaled := scaled_at (Nat.log2_self_le positive.ne') Nat.lt_log2_self
  have long := le_roundedQuotient scaled.positive scaled.long
  refine ⟨_, _, _, scaled, ?_⟩
  have up : ((integer.log2 : Int) - 52).toNat = integer.log2 - 52 := by omega
  have down : (-((integer.log2 : Int) - 52)).toNat = 52 - integer.log2 := by omega
  have place : ((integer.log2 : Int) - 52 - leastExponent).toNat = integer.log2 + 1022 := by
    simp only [leastExponent]
    omega
  simp only [quotientBits, lastPlace_integer positive, Nat.shiftLeft_eq, up, down, place,
    Nat.one_mul]
  exact congrArg (min · infinite) (if_neg (Nat.not_lt.mpr long))

/-- The magnitude of the double nearest to an integer. -/
def integerBits (integer : Nat) : Nat := if integer = 0 then 0 else quotientBits integer 1

variable {integer magnitude : Nat}

theorem units_integerBits (positive : 0 < integer) :
    ∃ numerator denominator place, Scaled integer numerator denominator place ∧
      units (integerBits integer) =
        min (roundedQuotient numerator denominator * 2 ^ place) (units infinite) := by
  obtain ⟨numerator, denominator, place, scaled, bits⟩ := exists_scaled positive
  refine ⟨_, _, _, scaled, ?_⟩
  rw [integerBits, if_neg positive.ne', bits, units_strictMono.monotone.map_min, scaled.units_eq]

theorem units_le_integerBits (integer : Nat) (number : magnitude ≤ infinite)
    (below : units magnitude ≤ integer * one) :
    units magnitude ≤ units (integerBits integer) := by
  rcases Nat.eq_zero_or_pos integer with rfl | positive
  · simpa [integerBits, units_zero] using below
  · obtain ⟨numerator, denominator, place, scaled, rounded⟩ := units_integerBits positive
    rw [rounded]
    refine Nat.le_min.mpr ⟨?_, units_strictMono.monotone number⟩
    rcases units_on_grid magnitude place with ⟨significand, grid⟩ | small
    · rw [grid] at below ⊢
      exact Nat.mul_le_mul_right _ (le_roundedQuotient scaled.positive (scaled.le_iff.mpr below))
    · exact small.le.trans
        (Nat.mul_le_mul_right _ (le_roundedQuotient scaled.positive scaled.long))

theorem integerBits_le_units (integer magnitude : Nat)
    (above : integer * one ≤ units magnitude) :
    units (integerBits integer) ≤ units magnitude := by
  rcases Nat.eq_zero_or_pos integer with rfl | positive
  · exact Nat.zero_le _
  · obtain ⟨numerator, denominator, place, scaled, rounded⟩ := units_integerBits positive
    rw [rounded]
    refine (Nat.min_le_left _ _).trans ?_
    rcases units_on_grid magnitude place with ⟨significand, grid⟩ | small
    · rw [grid] at above ⊢
      exact Nat.mul_le_mul_right _ (roundedQuotient_le scaled.positive (scaled.ge_iff.mpr above))
    · -- the integer has its leading bit at the place
      have long := scaled.le_iff.mp scaled.long
      omega

theorem integerBits_le (integer : Nat) : integerBits integer ≤ infinite := by
  unfold integerBits
  split
  · exact Nat.zero_le _
  · exact Nat.min_le_right _ _

/-- The bits of the double nearest to an integer. -/
def signedBits (integer : Int) : Nat :=
  integerBits integer.natAbs + if integer < 0 then 2 ^ 63 else 0

theorem signedBits_lt (integer : Int) : signedBits integer < 2 ^ 64 := by
  have bound := integerBits_le integer.natAbs
  simp only [infinite] at bound
  unfold signedBits
  split <;> omega

theorem signedBits_mod (integer : Int) :
    signedBits integer % 2 ^ 63 = integerBits integer.natAbs := by
  have bound := integerBits_le integer.natAbs
  simp only [infinite] at bound
  unfold signedBits
  split <;> omega

theorem signedBits_lt_iff (integer : Int) : signedBits integer < 2 ^ 63 ↔ 0 ≤ integer := by
  have bound := integerBits_le integer.natAbs
  simp only [infinite] at bound
  unfold signedBits
  split <;> omega

theorem isNaN_signedBits (integer : Int) : isNaN (signedBits integer) = false := by
  rw [isNaN_bits, signedBits_mod]
  exact decide_eq_false (Nat.not_lt.mpr (integerBits_le _))

theorem ofInt_eq (integer : Int) :
    ofInt integer = Float.ofBits (UInt64.ofNat (signedBits integer)) := by
  have close : ¬ ((integer.natAbs.log2 : Int) + 1 < -400) := by omega
  simp [ofInt, nearest, signedBits, integerBits, close]

theorem toBits_ofInt (integer : Int) : (ofInt integer).toBits.toNat = signedBits integer := by
  have fits : (UInt64.ofNat (signedBits integer)).toNat = signedBits integer := by
    rw [UInt64.toNat_ofNat', Nat.mod_eq_of_lt (signedBits_lt integer)]
  rw [ofInt_eq, toBits_ofBits, fits]
  rw [fits, isNaN_signedBits]

theorem ofInt_isNaN (integer : Int) : (ofInt integer).isNaN = false := by
  rw [isNaN_eq, toBits_ofInt, isNaN_signedBits]

theorem multiple_ofInt (integer : Int) : multiple (ofInt integer).toBits.toNat =
    if 0 ≤ integer then (units (integerBits integer.natAbs) : Int)
    else -(units (integerBits integer.natAbs) : Int) := by
  simp only [toBits_ofInt, multiple_eq, signedBits_mod, signedBits_lt_iff]

theorem one_pos : (0 : Int) < one := by
  unfold one
  generalize 1074 = places
  exact Int.natCast_pos.mpr (Nat.two_pow_pos places)

theorem mul_one_eq (integer : Int) : integer * one =
    if 0 ≤ integer then ((integer.natAbs * one : Nat) : Int)
    else -((integer.natAbs * one : Nat) : Int) := by
  rw [Int.natCast_mul]
  split
  · next positive => rw [Int.natAbs_of_nonneg positive]
  · next negative => rw [Int.ofNat_natAbs_of_nonpos (by omega), Int.neg_mul, Int.neg_neg]

/-- What a double stands for is on the same side of an integer and of the double
nearest to that. -/
theorem multiple_side {bits : Nat} (integer : Int) (number : isNaN bits = false) :
    (multiple bits ≤ integer * one → multiple bits ≤ multiple (ofInt integer).toBits.toNat) ∧
      (integer * one ≤ multiple bits → multiple (ofInt integer).toBits.toNat ≤ multiple bits) := by
  rw [isNaN_bits, decide_eq_false_iff_not, Nat.not_lt] at number
  have rises := units_le_integerBits integer.natAbs number
  have falls := integerBits_le_units integer.natAbs (bits % 2 ^ 63)
  rw [multiple_ofInt, mul_one_eq, multiple_eq]
  generalize integer.natAbs * one = exact at *
  split <;> split <;> omega

section Limits

variable {value : Float} {integer : Int}

theorem le_ofInt (number : value.isNaN = false)
    (below : multiple value.toBits.toNat ≤ integer * one) : value ≤ ofInt integer :=
  (le_iff_multiple_le number (ofInt_isNaN integer)).mpr
    ((multiple_side integer (isNaN_eq value ▸ number)).1 below)

theorem ofInt_le (number : value.isNaN = false)
    (above : integer * one ≤ multiple value.toBits.toNat) : ofInt integer ≤ value :=
  (le_iff_multiple_le (ofInt_isNaN integer) number).mpr
    ((multiple_side integer (isNaN_eq value ▸ number)).2 above)

theorem saturate_bounds (integer : Int) :
    leastInteger ≤ saturate integer ∧ saturate integer ≤ greatestInteger := by
  simp only [saturate, leastInteger, greatestInteger]
  omega

theorem integerAbove_eq (number : value.isNaN = false) :
    integerAbove value = saturate (-(-multiple value.toBits.toNat / one)) := by
  rw [isNaN_eq] at number
  simp only [integerAbove, number, Bool.false_eq_true, if_false]

theorem integerBelow_eq (number : value.isNaN = false) :
    integerBelow value = saturate (multiple value.toBits.toNat / one) := by
  rw [isNaN_eq] at number
  simp only [integerBelow, number, Bool.false_eq_true, if_false]

theorem leastInteger_le_integerAbove (number : value.isNaN = false) :
    leastInteger ≤ integerAbove value := by
  rw [integerAbove_eq number]
  exact (saturate_bounds _).1

theorem integerBelow_le_greatestInteger (number : value.isNaN = false) :
    integerBelow value ≤ greatestInteger := by
  rw [integerBelow_eq number]
  exact (saturate_bounds _).2

/-- The integers from the least one above a number on are not below it as doubles.  The
last one of 64 bits may itself be below, but not as a double. -/
theorem le_of_integerAbove_le (number : value.isNaN = false)
    (within : value ≤ ofInt greatestInteger) (fits : integer ≤ greatestInteger)
    (behind : integerAbove value ≤ integer) : value ≤ ofInt integer := by
  rw [integerAbove_eq number] at behind
  by_cases reached : -(-multiple value.toBits.toNat / one) ≤ integer
  · have exact := (Int.le_ediv_iff_mul_le one_pos).mp (Int.neg_le_of_neg_le reached)
    rw [Int.neg_mul] at exact
    exact le_ofInt number (Int.le_of_neg_le_neg exact)
  · have last : integer = greatestInteger := by
      simp only [saturate] at behind
      omega
    rw [last]
    exact within

/-- The integers up to the greatest one below a number are not above it as doubles. -/
theorem le_of_le_integerBelow (number : value.isNaN = false)
    (within : ofInt leastInteger ≤ value) (fits : leastInteger ≤ integer)
    (ahead : integer ≤ integerBelow value) : ofInt integer ≤ value := by
  rw [integerBelow_eq number] at ahead
  by_cases reached : integer ≤ multiple value.toBits.toNat / one
  · exact ofInt_le number ((Int.le_ediv_iff_mul_le one_pos).mp reached)
  · have first : integer = leastInteger := by
      simp only [saturate] at ahead
      omega
    rw [first]
    exact within

theorem not_ofInt_lt_zero (nonnegative : 0 ≤ integer) : ¬ ofInt integer < 0.0 := by
  refine not_lt_zero ?_
  rw [toBits_ofInt]
  exact (signedBits_lt_iff integer).mpr nonnegative

end Limits

end Typeahead.Decimal
