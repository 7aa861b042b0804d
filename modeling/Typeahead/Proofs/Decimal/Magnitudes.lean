import Mathlib.Algebra.Order.Ring.Nat
import Typeahead.Decimal.Integer

namespace Typeahead.Decimal

/-! The magnitudes of doubles, which are their bits without the sign.

A magnitude holds a significand and the place, counted from the least one, at
which the significand stands.  The significand has its leading bit unless the
place is the least, so magnitudes are in the order of what they stand for. -/

/-- The magnitude of the infinities. -/
def infinite : Nat := 0x7FF0000000000000

structure Placed (place significand magnitude : Nat) : Prop where
  magnitude_eq : magnitude = place * 2 ^ 52 + significand
  short : significand < 2 ^ 53
  leading : place = 0 ∨ 2 ^ 52 ≤ significand

/-- The multiple of the least positive double that a magnitude stands for. -/
def units (magnitude : Nat) : Nat :=
  let binary := Binary.ofBits magnitude
  binary.significand * 2 ^ (binary.exponent - leastExponent).toNat

theorem exists_placed (magnitude : Nat) :
    ∃ place significand, Placed place significand magnitude := by
  by_cases least : magnitude < 2 ^ 52
  · exact ⟨0, magnitude, by omega, by omega, .inl rfl⟩
  · exact ⟨magnitude / 2 ^ 52 - 1, magnitude % 2 ^ 52 + 2 ^ 52, by omega, by omega, .inr (by omega)⟩

namespace Placed

variable {place place' significand significand' magnitude magnitude' : Nat}

theorem ofBits_eq (placed : Placed place significand magnitude) :
    Binary.ofBits magnitude = ⟨significand, (place : Int) - 1074⟩ := by
  obtain ⟨rfl, short, leading⟩ := placed
  simp only [Binary.ofBits, Nat.pow_eq]
  split
  · have least : place = 0 := by omega
    subst place
    rw [Binary.mk.injEq]
    omega
  · rw [Binary.mk.injEq]
    omega

theorem units_eq (placed : Placed place significand magnitude) :
    units magnitude = significand * 2 ^ place := by
  simp only [units, placed.ofBits_eq, leastExponent]
  congr
  omega

theorem lt_iff (placed : Placed place significand magnitude)
    (placed' : Placed place' significand' magnitude') :
    magnitude < magnitude' ↔ place < place' ∨ place = place' ∧ significand < significand' := by
  obtain ⟨rfl, short, leading⟩ := placed
  obtain ⟨rfl, short', leading'⟩ := placed'
  omega

/-- What stands at an earlier place is less than any long significand. -/
theorem units_lt (placed : Placed place significand magnitude) (earlier : place < place') :
    units magnitude < 2 ^ 52 * 2 ^ place' := by
  rw [placed.units_eq]
  calc significand * 2 ^ place < 2 ^ 53 * 2 ^ place :=
        Nat.mul_lt_mul_of_pos_right placed.short (Nat.two_pow_pos _)
    _ = 2 ^ 52 * 2 ^ (place + 1) := by rw [Nat.pow_succ 2 place]; omega
    _ ≤ 2 ^ 52 * 2 ^ place' := Nat.mul_le_mul_left _ (Nat.pow_le_pow_right Nat.two_pos earlier)

theorem positive (placed : Placed place significand magnitude) (positive : 0 < significand) :
    0 < magnitude := by
  have whole := placed.magnitude_eq
  omega

theorem compare_eq (placed : Placed place significand magnitude)
    (placed' : Placed place' significand' magnitude') :
    (compare ((place : Int) - 1074) ((place' : Int) - 1074)).then
      (compare significand significand') = compare magnitude magnitude' := by
  have before := placed.lt_iff placed'
  have behind := placed'.lt_iff placed
  rcases Nat.lt_trichotomy place place' with earlier | rfl | later
  · rw [compare_lt_iff_lt.mpr (by omega), compare_lt_iff_lt.mpr (before.mpr (.inl earlier))]
    rfl
  · rw [compare_eq_iff_eq.mpr rfl, Ordering.eq_then]
    rcases Nat.lt_trichotomy significand significand' with less | rfl | more
    · rw [compare_lt_iff_lt.mpr less, compare_lt_iff_lt.mpr (by omega)]
    · rw [compare_eq_iff_eq.mpr rfl, compare_eq_iff_eq.mpr (by omega)]
    · rw [compare_gt_iff_gt.mpr more, compare_gt_iff_gt.mpr (by omega)]
  · rw [compare_gt_iff_gt.mpr (by omega), compare_gt_iff_gt.mpr (behind.mpr (.inl later))]
    rfl

end Placed

/-- A significand that rounding made too long is one at the next place. -/
theorem units_at {place significand : Nat} (fits : significand ≤ 2 ^ 53)
    (leading : place = 0 ∨ 2 ^ 52 ≤ significand) :
    units (place * 2 ^ 52 + significand) = significand * 2 ^ place := by
  by_cases short : significand < 2 ^ 53
  · exact Placed.units_eq ⟨rfl, short, leading⟩
  · have long : significand = 2 ^ 53 := by omega
    have next : Placed (place + 1) (2 ^ 52) (place * 2 ^ 52 + significand) :=
      ⟨by omega, by omega, .inr (Nat.le_refl _)⟩
    rw [next.units_eq, long, Nat.pow_succ 2 place]
    omega

theorem units_strictMono : StrictMono units := by
  intro magnitude magnitude' below
  obtain ⟨place, significand, placed⟩ := exists_placed magnitude
  obtain ⟨place', significand', placed'⟩ := exists_placed magnitude'
  rcases (placed.lt_iff placed').mp below with earlier | ⟨rfl, less⟩
  · have long : 2 ^ 52 ≤ significand' := placed'.leading.resolve_left (by omega)
    rw [placed'.units_eq]
    exact Nat.lt_of_lt_of_le (placed.units_lt earlier) (Nat.mul_le_mul_right _ long)
  · rw [placed.units_eq, placed'.units_eq]
    exact Nat.mul_lt_mul_of_pos_right less (Nat.two_pow_pos _)

theorem units_zero : units 0 = 0 := rfl

end Typeahead.Decimal
