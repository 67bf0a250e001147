import Mathlib
import RelationalLP.Proofs.Number.Exact
import RelationalLP.Proofs.Number.RoundedIntegers

/-! # Multiplication by one and addition to zero

Rounding a double with zeros behind it gives the double back. So multiplying by one changes no pattern,
of what is no number included. A sum that starts from zero keeps its first number, except for the sign of
a zero. -/

namespace RelationalLP

/-- **Numbers that one does not change**, neither as a factor before them nor behind them; it is told apart
from all others by its value. -/
class Scalar.KeptByOne (K : Type) [Scalar K] : Prop where
  /-- One as the first factor. -/
  one_mul (x : K) : 1 * x = x
  /-- One as the second factor. -/
  mul_one (x : K) : x * 1 = x
  /-- No other number has the value one. -/
  eq_one_of_numEq {x : K} : Scalar.numEq x 1 = true → x = 1
  /-- Zero has the value zero. -/
  isZero_zero : Scalar.isZero (0 : K) = true

instance : Scalar.KeptByOne ℚ where
  one_mul := one_mul
  mul_one := mul_one
  eq_one_of_numEq := by simp
  isZero_zero := by simp

open Float.Model Float.Model.UnpackedFloat

namespace Double

/-! ### Patterns of numbers -/

theorem isNaN_eq_isNaNBits (x : Double) : x.isNaN = @isNaNBits .binary64 x.bits.toBitVec := by
  have hexponent : @unpackExponent .binary64 x.bits.toBitVec = -1#11
      ↔ x.bits.toNat / 2 ^ 52 % 2 ^ 11 = 2047 := by
    rw [← BitVec.toNat_inj, toNat_unpackExponent]
    rfl
  have hmantissa : @unpackMantissa .binary64 x.bits.toBitVec ≠ 0#52
      ↔ x.bits.toNat % 2 ^ 52 ≠ 0 := by
    rw [ne_eq, ← BitVec.toNat_inj, toNat_unpackMantissa]
    rfl
  rw [Bool.eq_iff_iff, isNaNBits, decide_eq_true_eq, hexponent, hmantissa, isNaN, decide_eq_true_eq,
    UInt64.lt_iff_toNat_lt, toNat_magnitude, infinityBits]
  simp only [UInt64.reduceToNat]
  omega

/-- A pattern that is a number is packed again from the number that it stands for. -/
theorem pack_value {x : Double} (h : x.isNaN = false) :
    UnpackedFloat.pack .binary64 x.value = x.bits.toBitVec := by
  rw [value, pack_unpack, ← isNaN_eq_isNaNBits, h]
  rfl

/-- A pattern that is a number is the pattern of its machine number. -/
theorem ofFloat_toFloat {x : Double} (h : x.isNaN = false) : ofFloat x.toFloat = x := by
  have hpack := pack_value h
  have hnan : x.toFloat.isNaN = false := by
    show x.toFloat.toModel.unpack.isNaN = false
    rw [unpack_toFloat, ← Bool.not_eq_true, isNaN_iff]
    intro hvalue
    rw [hvalue] at hpack
    rw [isNaN_eq_isNaNBits, ← hpack] at h
    exact absurd h (by decide)
  rw [ofFloat, hnan]
  exact congrArg mk (congrArg UInt64.ofBitVec hpack)

/-! ### Rounding -/

/-- A double is rounded to itself, also when zeros follow it. -/
theorem roundWithAccuracy_shifted (s : Sign) {m k : ℕ} (j : ℕ) (hpos : 0 < m) (hm : m < 2 ^ 53)
    (hk : k = 0 ∨ 2 ^ 52 ≤ m) :
    roundWithAccuracy .binary64 s (m * 2 ^ j) (k - 1074 - j) .exact
      = .finite s m (k - 1074) hpos := by
  have hlog : ∀ i : ℕ, (m * 2 ^ i).log2 = m.log2 + i := by
    intro i
    refine (Nat.log2_eq_iff (Nat.mul_pos hpos (Nat.two_pow_pos i)).ne').mpr ⟨?_, ?_⟩
    · rw [pow_add]
      exact Nat.mul_le_mul_right _ (Nat.log2_self_le hpos.ne')
    · rw [Nat.add_right_comm, pow_add]
      exact Nat.mul_lt_mul_of_pos_right Nat.lt_log2_self (Nat.two_pow_pos i)
  -- zeros behind the mantissa are taken off again, whether the number is normal or not
  have htarget : ∀ i : ℕ, Format.targetExponent .binary64 (totalExponent (m * 2 ^ i) (k - 1074 - i))
      = k - 1074 := by
    intro i
    have hlt : m.log2 < 53 := (Nat.log2_lt hpos.ne').mpr hm
    have hge : k = 0 ∨ 52 ≤ m.log2 := hk.imp_right (Nat.le_log2 hpos.ne').mpr
    simp only [Format.targetExponent, totalExponent, Format.mantissaBits, Format.minExponent, hlog]
    omega
  have hshift : ∀ i : ℕ, shiftToTargetExponent .binary64 (m * 2 ^ i) (k - 1074 - i) .exact
      = (ExtendedMantissa.mk (m * 2 ^ i) false false >>> i, (k : ℤ) - 1074) := by
    intro i
    rw [shiftToTargetExponent, htarget, shiftToExponent, sub_sub_cancel, Int.toNat_natCast,
      sub_add_cancel]
    rfl
  have hzero := hshift 0
  rw [pow_zero, mul_one, Nat.cast_zero, sub_zero] at hzero
  have hmantissa : (ExtendedMantissa.mk m false false >>> 0).mantissa = m := rfl
  simp only [roundWithAccuracy, hshift, roundedMantissa_shiftRight_mul, hzero, hmantissa, hpos.ne',
    dite_false]

/-! ### Products -/

theorem value_one : (1 : Double).value = .finite .positive (2 ^ 52) (-52) (by decide) := by rfl

theorem mul_value_one (x : Double) :
    UnpackedFloat.mul .binary64 x.value (1 : Double).value = x.value := by
  rw [value_one]
  cases hx : x.value with
  | notANumber => rfl
  | infinity s => cases s <;> rfl
  | zero s => cases s <;> rfl
  | finite s m e h =>
    obtain ⟨k, -, rfl, hm, hk, -⟩ := unpack_eq_finite hx
    have hsign : s * .positive = s := by cases s <;> rfl
    show roundWithAccuracy .binary64 (s * .positive) (m * 2 ^ 52) (k - 1074 - (52 : ℕ)) .exact = _
    rw [hsign, roundWithAccuracy_shifted s 52 h hm hk]

theorem one_mul_value (x : Double) :
    UnpackedFloat.mul .binary64 (1 : Double).value x.value = x.value := by
  rw [value_one]
  cases hx : x.value with
  | notANumber => rfl
  | infinity s => cases s <;> rfl
  | zero s => cases s <;> rfl
  | finite s m e h =>
    obtain ⟨k, -, rfl, hm, hk, -⟩ := unpack_eq_finite hx
    have hsign : Sign.positive * s = s := by cases s <;> rfl
    have hexponent : (-52 : ℤ) + (k - 1074) = k - 1074 - (52 : ℕ) := by omega
    show roundWithAccuracy .binary64 (.positive * s) (2 ^ 52 * m) (-52 + (k - 1074)) .exact = _
    rw [hsign, hexponent, Nat.mul_comm, roundWithAccuracy_shifted s 52 h hm hk]

/-- A machine number times another is the packed product. -/
theorem toFloat_mul_toFloat (x y : Double) : x.toFloat * y.toFloat
    = .ofModel (Float.Model.pack (UnpackedFloat.mul .binary64 x.value y.value)) := by
  rw [← unpack_toFloat, ← unpack_toFloat]
  rfl

/-- **One changes no double**, not even one that is no number. -/
instance : Scalar.KeptByOne Double where
  one_mul x := by
    show combine (· * ·) 1 x = x
    cases hx : x.isNaN with
    | true => rw [combine, hx]; rfl
    | false =>
      have hmul : (1 : Double).toFloat * x.toFloat = x.toFloat := by
        rw [toFloat_mul_toFloat, one_mul_value]
        rfl
      rw [combine, hx, hmul]
      exact ofFloat_toFloat hx
  mul_one x := by
    show combine (· * ·) x 1 = x
    cases hx : x.isNaN with
    | true => rw [combine, hx]; rfl
    | false =>
      have hmul : x.toFloat * (1 : Double).toFloat = x.toFloat := by
        rw [toFloat_mul_toFloat, mul_value_one]
        rfl
      rw [combine, hx, hmul]
      exact ofFloat_toFloat hx
  eq_one_of_numEq h := (numEq_iff.mp h).2.2.resolve_right fun hzero => absurd hzero.2 (by decide)
  isZero_zero := by decide

/-! ### Sums from zero -/

/-- A pattern that stands for a zero is one of the two zeros. -/
theorem eq_of_value_eq_zero {x : Double} {s : Sign} (hx : x.value = .zero s) :
    x = 0 ∨ x = negate 0 := by
  have hfinite : x.isFinite = true := by
    rw [isFinite_eq_value, hx]
    rfl
  have hpack := pack_value (isNaN_of_isFinite hfinite)
  obtain ⟨b⟩ := x
  rw [hx] at hpack
  have hbits : b = UInt64.ofBitVec (UnpackedFloat.pack .binary64 (.zero s)) := by rw [hpack]
  rw [hbits]
  cases s with
  | positive => exact .inl rfl
  | negative => exact .inr rfl

/-- A machine number plus another is the packed sum. -/
theorem toFloat_add_toFloat (x y : Double) : x.toFloat + y.toFloat
    = .ofModel (Float.Model.pack (UnpackedFloat.add .binary64 x.value y.value)) := by
  rw [← unpack_toFloat, ← unpack_toFloat]
  rfl

theorem value_zero : (0 : Double).value = .zero .positive := by rfl

/-- **A double added to zero stays the same**, except that a zero may lose its sign. -/
instance : Scalar.StartsFromZero Double where
  zero_add_of_ne {v} hv := by
    show combine (· + ·) 0 v = v
    cases hnan : v.isNaN with
    | true => rw [combine, hnan]; rfl
    | false =>
      have hsum : UnpackedFloat.add .binary64 (0 : Double).value v.value = v.value := by
        rw [value_zero]
        cases hvalue : v.value with
        | zero s => obtain rfl | rfl := eq_of_value_eq_zero hvalue <;> cases hv
        | _ => rfl
      have hadd : (0 : Double).toFloat + v.toFloat = v.toFloat := by
        rw [toFloat_add_toFloat, hsum]
        rfl
      rw [combine, hnan, hadd]
      exact ofFloat_toFloat hnan
  isZero_zero_add {v} hv := by
    obtain ⟨-, -, rfl | ⟨hzero, -⟩⟩ := numEq_iff.mp hv
    · decide +kernel
    · cases hsign : v.isNegative with
      | false =>
        obtain rfl : v = 0 := eq_of_isNegative_of_magnitude hsign hzero
        decide +kernel
      | true =>
        obtain rfl : v = negate 0 := eq_of_isNegative_of_magnitude hsign hzero
        decide +kernel

end Double

end RelationalLP
