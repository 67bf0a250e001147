import Mathlib
import RelationalLP.Proofs.Number.HalfUnits
import RelationalLP.Proofs.Number.NearestDoubles
import RelationalLP.Proofs.Number.UnitProducts

/-! # Relative rounding

A sum, a product or a quotient of doubles is the exact one up to a relative error of `2 ^ (-53)`, and up to
half of the least positive double where the result may be that small. Rounding to whole numbers moves a
double by a half at most. -/

namespace RelationalLP

open Float.Model Float.Model.UnpackedFloat

namespace Double

/-! ### Exact values -/

/-- **The exact value of a finite double** is the one of the number that its pattern stands for. -/
theorem exact_eq_exactOf {x : Double} (hx : x.isFinite) : x.exact = exactOf x.value := by
  rw [isFinite_eq_value] at hx
  cases hvalue : x.value with
  | notANumber => rw [hvalue] at hx; cases hx
  | infinity s => rw [hvalue] at hx; cases hx
  | zero s =>
    have hunits : x.units = 0 := by obtain rfl | rfl := eq_of_value_eq_zero hvalue <;> rfl
    rw [exact, hunits, Nat.cast_zero, zero_div, mul_zero, exactOf_zero]
  | finite s m e h =>
    obtain ⟨-, k, rfl, hunits⟩ := units_of_value hvalue
    have hsign : (if x.isNegative then -1 else 1 : ℚ) = factor s := by
      have hiff := isNegative_iff_of_value hvalue
      cases s <;> cases hnegative : x.isNegative <;> simp [hnegative] at hiff <;> rfl
    rw [exact, hsign, hunits, unitsOfOne, exactOf_finite, zpow_sub₀ two_ne_zero, zpow_natCast,
      zpow_ofNat, Nat.cast_mul, Nat.cast_pow, Nat.cast_pow, Nat.cast_two, mul_div_assoc]

/-- A zero has the exact value zero, with whatever sign. -/
theorem exact_of_isZero {x : Double} (h : Scalar.isZero x) : x.exact = 0 := by
  have hunits : x.units = 0 := by
    obtain ⟨-, -, rfl | ⟨hmagnitude, -⟩⟩ := numEq_iff.mp h
    · rfl
    · rw [units, hmagnitude]
      rfl
  rw [exact, hunits, Nat.cast_zero, zero_div, mul_zero]

theorem canonical_value {x : Double} (hx : x.isFinite) : Canonical x.value := by
  rw [isFinite_eq_value] at hx
  cases hvalue : x.value with
  | notANumber => rw [hvalue] at hx; cases hx
  | infinity s => rw [hvalue] at hx; cases hx
  | zero s => trivial
  | finite s m e h =>
    obtain ⟨k, -, he, hm, hnormal, -⟩ := unpack_eq_finite hvalue
    exact ⟨hm, k, he, hnormal⟩

/-- A finite double packed from a number of the format has its exact value. -/
theorem exact_ofFloat {u : UnpackedFloat} (hu : Canonical u)
    (hfinite : (ofFloat (.ofModel (Float.Model.pack u))).isFinite) :
    (ofFloat (.ofModel (Float.Model.pack u))).exact = exactOf u := by
  have hvalue : (ofFloat (.ofModel (Float.Model.pack u))).value
      = UnpackedFloat.unpack .binary64 (UnpackedFloat.pack .binary64 u) := value_ofFloat _
  rw [exact_eq_exactOf hfinite, hvalue]
  rw [isFinite_eq_value, hvalue] at hfinite
  cases u with
  | notANumber => exact hu.elim
  | infinity s => exact hu.elim
  | zero s => cases s <;> rfl
  | finite s m e h =>
    obtain ⟨hm, k, rfl, hnormal⟩ := hu
    -- beyond the range the packed number would be infinite
    have hk : k ≤ 2045 := by
      by_contra hgt
      rw [unpack_pack_of_lt s (by omega)] at hfinite
      cases hfinite
    rw [unpack_pack_finite s hm hk hnormal]

section Arithmetic

variable {x y : Double} (hx : x.isFinite) (hy : y.isFinite)

include hx hy

/-- **A finite sum is near the exact one**, with a relative error. -/
theorem abs_sub_exact_add_le (h : (x + y).isFinite) :
    |x.exact + y.exact - (x + y).exact| ≤ |x.exact + y.exact| / 2 ^ 53 := by
  have hadd : x + y = ofFloat (.ofModel (Float.Model.pack
      (UnpackedFloat.add .binary64 x.value y.value))) := by
    rw [← toFloat_add_toFloat]
    exact combine_of_isFinite (· + ·) hx hy
  obtain ⟨hcanonical, hle⟩ := abs_sub_exactOf_add_le (canonical_value hx) (canonical_value hy)
  rw [hadd] at h ⊢
  rwa [exact_ofFloat hcanonical h, exact_eq_exactOf hx, exact_eq_exactOf hy]

/-- **A finite product is near the exact one.** -/
theorem abs_sub_exact_mul_le (h : (x * y).isFinite) :
    |x.exact * y.exact - (x * y).exact| ≤ |x.exact * y.exact| / 2 ^ 53 + 2 ^ (-1075 : ℤ) := by
  have hmul : x * y = ofFloat (.ofModel (Float.Model.pack
      (UnpackedFloat.mul .binary64 x.value y.value))) := by
    rw [← toFloat_mul_toFloat]
    exact combine_of_isFinite (· * ·) hx hy
  obtain ⟨hcanonical, hhalf⟩ := halfUnit_mul (canonical_value hx) (canonical_value hy)
  rw [hmul] at h ⊢
  rw [exact_ofFloat hcanonical h, exact_eq_exactOf hx, exact_eq_exactOf hy]
  exact hhalf.abs_sub_le

/-- **A finite quotient is near the exact one.** -/
theorem abs_sub_exact_div_le (hne : y.exact ≠ 0) (h : (x / y).isFinite) :
    |x.exact / y.exact - (x / y).exact| ≤ |x.exact / y.exact| / 2 ^ 53 + 2 ^ (-1075 : ℤ) := by
  have hdiv : x / y = ofFloat (.ofModel (Float.Model.pack
      (UnpackedFloat.div .binary64 x.value y.value))) := by
    rw [← unpack_toFloat x, ← unpack_toFloat y]
    exact combine_of_isFinite (· / ·) hx hy
  rw [exact_eq_exactOf hy] at hne
  obtain ⟨hcanonical, hhalf⟩ := halfUnit_div (canonical_value hx) (canonical_value hy) hne
  rw [hdiv] at h ⊢
  rw [exact_ofFloat hcanonical h, exact_eq_exactOf hx, exact_eq_exactOf hy]
  exact hhalf.abs_sub_le

end Arithmetic

/-! ### Whole numbers -/

/-- Natural numbers below `2 ^ 53` are exact. -/
theorem exact_ofNat {n : ℕ} (h : n < 2 ^ 53) : (ofNat n).exact = n := by
  obtain ⟨-, hunits, hsign⟩ := units_ofNat h
  have hpos : (0 : ℚ) < unitsOfOne := by exact_mod_cast unitsOfOne_pos
  rw [exact, hsign, hunits, Nat.cast_mul, mul_div_cancel_right₀ _ hpos.ne', if_neg Bool.false_ne_true,
    one_mul]

theorem exact_negate {x : Double} (h : x.isNegative = false) : x.negate.exact = -x.exact := by
  rw [exact, exact, isNegative_negate h, h, units, magnitude_negate, ← units, if_pos rfl,
    if_neg Bool.false_ne_true, neg_one_mul, one_mul]

/-- A fraction and half of a one, cut off, is within a half of the fraction. -/
theorem abs_sub_half_up_le (m : ℕ) {d : ℕ} (hd : 0 < d) :
    |(m : ℚ) / d - ((2 * m + d) / (2 * d) : ℕ)| ≤ 1 / 2 := by
  have hpos : (0 : ℚ) < d := by exact_mod_cast hd
  have hlow : (((2 * m + d) / (2 * d) : ℕ) : ℚ) * (2 * d) ≤ 2 * m + d := by
    exact_mod_cast Nat.div_mul_le_self (2 * m + d) (2 * d)
  have hhigh : (2 * m + d : ℚ) < (((2 * m + d) / (2 * d) : ℕ) + 1) * (2 * d) := by
    exact_mod_cast (Nat.div_lt_iff_lt_mul (show 0 < 2 * d by omega)).mp (Nat.lt_succ_self _)
  generalize (((2 * m + d) / (2 * d) : ℕ) : ℚ) = n at *
  rw [abs_le, le_sub_iff_add_le, sub_le_iff_le_add, le_div_iff₀ hpos, div_le_iff₀ hpos]
  constructor <;> linarith

/-- **Rounding to a whole number** moves a finite double by a half at most. -/
theorem exists_exact_round {x : Double} (hx : x.isFinite) :
    ∃ n : ℤ, x.round.exact = n ∧ |x.exact - n| ≤ 1 / 2 := by
  have hpos : (0 : ℚ) < unitsOfOne := by exact_mod_cast unitsOfOne_pos
  have hlow : -1074 ≤ x.exponent := by
    rw [exponent_eq]
    omega
  rcases Int.lt_or_le x.exponent 0 with hneg | hwhole
  · have hd := Nat.two_pow_pos (-x.exponent).toNat
    have hn := roundedSignificand_lt hneg
    have hhalf := abs_sub_half_up_le x.significand hd
    have hround : x.round = if x.isNegative
        then negate (ofNat ((2 * x.significand + 2 ^ (-x.exponent).toNat)
          / (2 * 2 ^ (-x.exponent).toNat)))
        else ofNat ((2 * x.significand + 2 ^ (-x.exponent).toNat)
          / (2 * 2 ^ (-x.exponent).toNat)) := by
      rw [round, hx, if_neg (by simpa using hneg)]
      rfl
    have hexact : x.exact = (if x.isNegative then -1 else 1)
        * (x.significand / (2 ^ (-x.exponent).toNat : ℕ)) := by
      rw [exact, units_eq, unitsOfOne_eq_of_neg hneg hlow, Nat.cast_mul, Nat.cast_mul,
        mul_div_mul_right _ _ (by exact_mod_cast (Nat.two_pow_pos _).ne')]
    generalize (2 * x.significand + 2 ^ (-x.exponent).toNat) / (2 * 2 ^ (-x.exponent).toNat) = n at *
    rw [hexact]
    cases hsign : x.isNegative with
    | false =>
      refine ⟨n, ?_, ?_⟩
      · rw [hround, hsign, if_neg Bool.false_ne_true, exact_ofNat hn, Int.cast_natCast]
      · rwa [if_neg Bool.false_ne_true, one_mul, Int.cast_natCast]
    | true =>
      refine ⟨-n, ?_, ?_⟩
      · rw [hround, hsign, if_pos rfl, exact_negate (units_ofNat hn).2.2, exact_ofNat hn, Int.cast_neg,
          Int.cast_natCast]
      · rwa [if_pos rfl, neg_one_mul, Int.cast_neg, Int.cast_natCast, neg_sub_neg, abs_sub_comm]
  · -- without a fraction the number is whole
    have hround : x.round = x := by rw [round, if_pos (by simp [hwhole])]
    have hexact : x.exact = (((if x.isNegative then -1 else 1)
        * (x.significand * 2 ^ x.exponent.toNat : ℕ) : ℤ) : ℚ) := by
      rw [exact, units_eq, two_pow_units_of_nonneg hwhole, ← Nat.mul_assoc, Nat.cast_mul,
        mul_div_cancel_right₀ _ hpos.ne']
      split <;> push_cast <;> rfl
    refine ⟨_, (congrArg exact hround).trans hexact, ?_⟩
    rw [hexact, sub_self, abs_zero]
    norm_num

end Double

end RelationalLP
