import Mathlib
import Typeahead.Proofs.Decimal.Magnitudes

namespace Typeahead.Decimal

/-! Doubles as the integers that they are multiples of.

The comparison of doubles looks at the parts of their bits; here it is traced
back to their ranks, and so to what they stand for. -/

open Float.Model Float.Model.UnpackedFloat

def sign (bits : Nat) : Sign := if bits < 2 ^ 63 then .positive else .negative

/-- What the bits of a double are unpacked to. -/
inductive Unpacked (bits : Nat) : UnpackedFloat → Prop where
  | nan (missing : isNaN bits = true) : Unpacked bits .notANumber
  | infinity (magnitude : bits % 2 ^ 63 = infinite) : Unpacked bits (.infinity (sign bits))
  | zero (magnitude : bits % 2 ^ 63 = 0) : Unpacked bits (.zero (sign bits))
  | finite {place significand : Nat} (placed : Placed place significand (bits % 2 ^ 63))
      (below : bits % 2 ^ 63 < infinite) (positive : 0 < significand) :
      Unpacked bits (.finite (sign bits) significand ((place : Int) - 1074) positive)

theorem toNat_unpackMantissa (bits : BitVec 64) :
    (@unpackMantissa Format.binary64 bits).toNat = bits.toNat % 2 ^ 52 := by
  simp [unpackMantissa]

theorem toNat_unpackExponent (bits : BitVec 64) :
    (@unpackExponent Format.binary64 bits).toNat = bits.toNat % 2 ^ 63 / 2 ^ 52 := by
  simp [unpackExponent, Nat.shiftRight_eq_div_pow]
  omega

theorem toNat_unpackSign (bits : BitVec 64) :
    (@unpackSign Format.binary64 bits).toNat = bits.toNat / 2 ^ 63 := by
  have bound : bits.toNat < 2 ^ 64 := bits.isLt
  simp [unpackSign, Nat.shiftRight_eq_div_pow]
  omega

theorem ofBitVec_unpackSign (bits : BitVec 64) :
    Sign.ofBitVec (@unpackSign Format.binary64 bits) = sign bits.toNat := by
  simp only [Sign.ofBitVec, sign, ← BitVec.toNat_inj, toNat_unpackSign]
  congr 1
  simp

theorem toNat_append_one (tail : BitVec 52) : (1#1 ++ tail).toNat = 2 ^ 52 + tail.toNat := by
  rw [BitVec.toNat_append, ← Nat.shiftLeft_add_eq_or_of_lt tail.isLt]
  rfl

theorem unpacked (bits : BitVec 64) :
    Unpacked bits.toNat (UnpackedFloat.unpack Format.binary64 bits) := by
  have tail := toNat_unpackMantissa bits
  have field := toNat_unpackExponent bits
  simp only [UnpackedFloat.unpack, ofBitVec_unpackSign]
  split
  · next full =>
    rw [full] at field
    have full' : 2047 = bits.toNat % 2 ^ 63 / 2 ^ 52 := field
    split
    · next empty =>
      rw [empty] at tail
      exact .infinity (by simp [infinite] at tail ⊢; omega)
    · next =>
      exact .nan (by simp [isNaN, ← BitVec.toNat_inj] at *; omega)
  · next partly =>
    have partly' : (@unpackExponent Format.binary64 bits).toNat ≠ 2047 := fun same =>
      partly (BitVec.toNat_inj.mp same)
    have below : bits.toNat % 2 ^ 63 < infinite := by simp only [infinite]; omega
    split
    · next least =>
      rw [least] at field
      have least' : 0 = bits.toNat % 2 ^ 63 / 2 ^ 52 := field
      split
      · next empty =>
        rw [empty] at tail
        have empty' : 0 = bits.toNat % 2 ^ 52 := tail
        exact .zero (by omega)
      · next =>
        have placed : Placed 0 (@unpackMantissa Format.binary64 bits).toNat (bits.toNat % 2 ^ 63) :=
          ⟨by omega, by omega, .inl rfl⟩
        rw [least]
        exact .finite placed below _
    · next higher =>
      have higher' : (@unpackExponent Format.binary64 bits).toNat ≠ 0 := fun same =>
        higher (BitVec.toNat_inj.mp same)
      have placed : Placed ((@unpackExponent Format.binary64 bits).toNat - 1)
          (1#1 ++ @unpackMantissa Format.binary64 bits).toNat (bits.toNat % 2 ^ 63) := by
        have appended := toNat_append_one (@unpackMantissa Format.binary64 bits)
        exact ⟨by omega, by omega, .inr (by omega)⟩
      have exponent : ((@unpackExponent Format.binary64 bits).toNat : Int) -
          (Format.binary64.exponentBias + Format.binary64.mantissaBitsWithoutImplicit) =
          (((@unpackExponent Format.binary64 bits).toNat - 1 : Nat) : Int) - 1074 := by
        simp only [Format.exponentBias]
        omega
      rw [exponent]
      exact .finite placed below _

/-- The place of a double among the doubles, from the zeros on. -/
def rank (bits : Nat) : Int :=
  if bits < 2 ^ 63 then ((bits % 2 ^ 63 : Nat) : Int) else -((bits % 2 ^ 63 : Nat) : Int)

theorem multiple_eq (bits : Nat) : multiple bits =
    if bits < 2 ^ 63 then (units (bits % 2 ^ 63) : Int) else -(units (bits % 2 ^ 63) : Int) := rfl

theorem multiple_le_iff (bits bits' : Nat) :
    multiple bits ≤ multiple bits' ↔ rank bits ≤ rank bits' := by
  have ordered := units_strictMono.le_iff_le (a := bits % 2 ^ 63) (b := bits' % 2 ^ 63)
  have ordered' := units_strictMono.le_iff_le (a := bits' % 2 ^ 63) (b := bits % 2 ^ 63)
  have zero := units_strictMono.le_iff_le (a := bits % 2 ^ 63) (b := 0)
  have zero' := units_strictMono.le_iff_le (a := bits' % 2 ^ 63) (b := 0)
  rw [units_zero] at zero zero'
  rw [multiple_eq, multiple_eq]
  unfold rank
  split <;> split <;> omega

theorem sign_cases (bits : Nat) :
    sign bits = .positive ∧ rank bits = (bits % 2 ^ 63 : Nat) ∨
      sign bits = .negative ∧ rank bits = -(bits % 2 ^ 63 : Nat) := by
  unfold sign rank
  split
  · exact .inl ⟨rfl, rfl⟩
  · exact .inr ⟨rfl, rfl⟩

section Comparison

variable {bits bits' place significand : Nat} {first second : UnpackedFloat}

theorem infinity_le_iff (magnitude : bits % 2 ^ 63 = infinite)
    (unpacked' : Unpacked bits' second) (number' : isNaN bits' = false) :
    (infinity (sign bits)).le second = true ↔ rank bits ≤ rank bits' := by
  have outer : 0 < infinite := by decide
  rcases sign_cases bits with ⟨signed, ranked⟩ | ⟨signed, ranked⟩ <;>
    rcases sign_cases bits' with ⟨signed', ranked'⟩ | ⟨signed', ranked'⟩ <;>
    rw [signed, ranked, ranked', magnitude] <;>
    cases unpacked' with
    | nan missing => simp [missing] at number'
    | infinity magnitude' =>
        rw [signed', magnitude']
        decide
    | zero magnitude' =>
        rw [magnitude']
        simp [UnpackedFloat.le, UnpackedFloat.compare] <;> omega
    | finite placed' below' _ =>
        simp [UnpackedFloat.le, UnpackedFloat.compare]
        omega

theorem zero_le_iff (magnitude : bits % 2 ^ 63 = 0)
    (unpacked' : Unpacked bits' second) (number' : isNaN bits' = false) :
    (zero (sign bits)).le second = true ↔ rank bits ≤ rank bits' := by
  have ranked : rank bits = 0 := by
    unfold rank
    split <;> omega
  rcases sign_cases bits' with ⟨signed', ranked'⟩ | ⟨signed', ranked'⟩ <;>
    rw [ranked, ranked'] <;>
    cases unpacked' with
    | nan missing => simp [missing] at number'
    | infinity magnitude' =>
        rw [signed', magnitude']
        simp [UnpackedFloat.le, UnpackedFloat.compare] <;> decide
    | zero magnitude' =>
        rw [magnitude']
        simp [UnpackedFloat.le, UnpackedFloat.compare]
    | finite placed' below' positive' =>
        have above' := placed'.positive positive'
        rw [signed']
        simp [UnpackedFloat.le, UnpackedFloat.compare]
        omega

theorem finite_le_iff {positive : 0 < significand}
    (placed : Placed place significand (bits % 2 ^ 63)) (below : bits % 2 ^ 63 < infinite)
    (unpacked' : Unpacked bits' second) (number' : isNaN bits' = false) :
    (finite (sign bits) significand ((place : Int) - 1074) positive).le second = true ↔
      rank bits ≤ rank bits' := by
  have above := placed.positive positive
  rcases sign_cases bits with ⟨signed, ranked⟩ | ⟨signed, ranked⟩ <;>
    rcases sign_cases bits' with ⟨signed', ranked'⟩ | ⟨signed', ranked'⟩ <;>
    rw [signed, ranked, ranked'] <;>
    cases unpacked' with
    | nan missing => simp [missing] at number'
    | infinity magnitude' =>
        rw [signed']
        simp [UnpackedFloat.le, UnpackedFloat.compare]
        omega
    | zero magnitude' =>
        simp [UnpackedFloat.le, UnpackedFloat.compare]
        omega
    | finite placed' below' positive' =>
        have above' := placed'.positive positive'
        rw [signed']
        simp [UnpackedFloat.le, UnpackedFloat.compare, placed.compare_eq placed', Nat.isLE_compare,
          Nat.compare_swap]
        omega

theorem le_iff_rank_le (unpacked : Unpacked bits first) (unpacked' : Unpacked bits' second)
    (number : isNaN bits = false) (number' : isNaN bits' = false) :
    first.le second = true ↔ rank bits ≤ rank bits' := by
  cases unpacked with
  | nan missing => simp [missing] at number
  | infinity magnitude => exact infinity_le_iff magnitude unpacked' number'
  | zero magnitude => exact zero_le_iff magnitude unpacked' number'
  | finite placed below _ => exact finite_le_iff placed below unpacked' number'

theorem isNaN_bits (bits : Nat) : isNaN bits = decide (infinite < bits % 2 ^ 63) := rfl

theorem Unpacked.isNaN_eq (unpacked : Unpacked bits first) : first.isNaN = isNaN bits := by
  cases unpacked with
  | nan missing => exact missing.symm
  | infinity magnitude =>
      rw [isNaN_bits, magnitude]
      simp [UnpackedFloat.isNaN]
  | zero magnitude =>
      rw [isNaN_bits, magnitude]
      simp [UnpackedFloat.isNaN]
  | finite placed below positive =>
      simp [isNaN_bits, UnpackedFloat.isNaN]
      omega

theorem Unpacked.not_lt_zero (unpacked : Unpacked bits first) (unsigned : bits < 2 ^ 63) :
    first.lt (.zero .positive) = false := by
  have signed : sign bits = .positive := if_pos unsigned
  cases unpacked <;> simp [UnpackedFloat.lt, UnpackedFloat.compare, signed]

end Comparison

theorem isNaN_eq (value : Float) : value.isNaN = isNaN value.toBits.toNat :=
  (unpacked value.toBits.toBitVec).isNaN_eq

/-- Numbers are compared by what they stand for. -/
theorem le_iff_multiple_le {value value' : Float} (number : value.isNaN = false)
    (number' : value'.isNaN = false) :
    value ≤ value' ↔ multiple value.toBits.toNat ≤ multiple value'.toBits.toNat := by
  rw [isNaN_eq] at number number'
  rw [multiple_le_iff]
  have compared := le_iff_rank_le (unpacked value.toBits.toBitVec) (unpacked value'.toBits.toBitVec)
    number number'
  show decide (value.toModel ≤ value'.toModel) = true ↔ _
  exact decide_eq_true_iff.trans compared

theorem not_lt_zero {value : Float} (unsigned : value.toBits.toNat < 2 ^ 63) : ¬ value < 0.0 := by
  have kept := (unpacked value.toBits.toBitVec).not_lt_zero unsigned
  show ¬ decide (value.toModel < (0.0 : Float).toModel) = true
  rw [decide_eq_true_iff]
  exact Bool.eq_false_iff.mp kept

/-- Bits that do not stand for a missing number are kept. -/
theorem toBits_ofBits {bits : UInt64} (number : isNaN bits.toNat = false) :
    (Float.ofBits bits).toBits = bits := by
  have proper : @isNaNBits Format.binary64 bits.toBitVec = false := by
    refine Bool.eq_false_iff.mpr fun missing => ?_
    have unread : UnpackedFloat.unpack Format.binary64 bits.toBitVec = .notANumber := by
      rw [isNaNBits, decide_eq_true_eq] at missing
      simp [UnpackedFloat.unpack, missing]
    have same := (unpacked bits.toBitVec).isNaN_eq
    rw [unread] at same
    exact Bool.eq_false_iff.mp number same.symm
  have kept := @pack_unpack Format.binary64 bits.toBitVec (by decide)
  rw [proper] at kept
  exact UInt64.toBitVec_inj.mp kept

end Typeahead.Decimal
