import Mathlib
import RelationalLP.Proofs.Number.RoundedIntegers

/-! # Results within half a unit

What an operation of the format gives is its exact result, rounded: a number of the format within half a
unit in the last place. The mantissa with its residual bits stands for the exact result, and shifting it
loses nothing that rounding asks for. -/

namespace RelationalLP

open Float.Model Float.Model.UnpackedFloat

namespace Double

/-! ### Mantissas with residual bits -/

/-- **A mantissa with its residual bits stands for a number**: the bit after the mantissa is a half, and the
sticky bit says whether less than that is left. -/
def Reads (em : ExtendedMantissa) (z : ℚ) : Prop :=
  ∃ rest : ℚ, z = em.mantissa + (if em.roundBit then 1 / 2 else 0) + rest
    ∧ 0 ≤ rest ∧ rest < 1 / 2 ∧ (0 < rest ↔ em.stickyBit)

variable {em : ExtendedMantissa} {z : ℚ}

theorem Reads.mantissa_le (h : Reads em z) : (em.mantissa : ℚ) ≤ z := by
  obtain ⟨rest, rfl, hnonneg, -⟩ := h
  split <;> linarith

theorem Reads.lt_mantissa_add_one (h : Reads em z) : z < em.mantissa + 1 := by
  obtain ⟨rest, rfl, -, hlt, -⟩ := h
  split <;> linarith

/-- Shifted by one the mantissa stands for half of the number. -/
theorem Reads.shiftRightOne (h : Reads em z) : Reads em.shiftRightOne (z / 2) := by
  obtain ⟨m, round, sticky⟩ := em
  obtain ⟨rest, rfl, hnonneg, hlt, hsticky⟩ := h
  have hm : (m : ℚ) = 2 * (m / 2 : ℕ) + (m % 2 : ℕ) := by exact_mod_cast (Nat.div_add_mod m 2).symm
  refine ⟨(if round then 1 / 4 else 0) + rest / 2, ?_, ?_, ?_, ?_⟩
  · simp only [ExtendedMantissa.shiftRightOne, hm]
    rcases Nat.mod_two_eq_zero_or_one m with hmod | hmod <;> cases round <;> simp [hmod] <;> ring
  · split <;> linarith
  · split <;> linarith
  · cases round
    · simpa [ExtendedMantissa.shiftRightOne] using hsticky
    · simp [ExtendedMantissa.shiftRightOne]
      linarith

/-- Shifted by `k` the mantissa stands for the number divided by `2 ^ k`. -/
theorem Reads.shiftRight (h : Reads em z) (k : ℕ) : Reads (em >>> k) (z / 2 ^ k) := by
  induction k with
  | zero => rwa [pow_zero, div_one]
  | succ k ih =>
    rw [pow_succ, ← div_div]
    exact ih.shiftRightOne

/-- **The rounded mantissa is within a half of the number.** -/
theorem Reads.abs_sub_roundedMantissa_le (h : Reads em z) : |z - em.roundedMantissa| ≤ 1 / 2 := by
  obtain ⟨m, round, sticky⟩ := em
  obtain ⟨rest, rfl, hnonneg, hlt, hsticky⟩ := h
  rw [abs_le]
  cases round <;> cases sticky <;>
    simp only [ExtendedMantissa.roundedMantissa, ExtendedMantissa.accuracy, Accuracy.roundToNearestEven,
      Bool.false_eq_true, if_false, if_true, iff_false, iff_true, not_lt] at * <;> push_cast
  · constructor <;> linarith
  · constructor <;> linarith
  · -- a half goes to the even neighbour
    rcases Nat.mod_two_eq_zero_or_one m with h | h <;> rw [h] <;> constructor <;> push_cast <;> linarith
  · constructor <;> linarith

theorem reads_exact (m : ℕ) : Reads (.ofMantissaAndAccuracy m .exact) m :=
  ⟨0, by simp [ExtendedMantissa.ofMantissaAndAccuracy], le_rfl, by norm_num,
    by simp [ExtendedMantissa.ofMantissaAndAccuracy]⟩

/-- A quotient of naturals with the place of its remainder stands for the fraction. -/
theorem reads_fraction (a : ℕ) {n : ℕ} (hn : 0 < n) :
    Reads (.ofMantissaAndAccuracy (a / n) (accuracyOfFraction (a % n) n)) (a / n) := by
  have hpos : (0 : ℚ) < n := by exact_mod_cast hn
  have hquotient : (a : ℚ) / n = (a / n : ℕ) + (a % n : ℕ) / n := by
    rw [div_eq_iff hpos.ne', add_mul, div_mul_cancel₀ _ hpos.ne']
    exact_mod_cast (Nat.div_add_mod' a n).symm
  have hlt : ((a % n : ℕ) : ℚ) < n := by exact_mod_cast Nat.mod_lt a hn
  rw [hquotient]
  generalize a % n = r at hlt
  rw [accuracyOfFraction]
  split
  · rename_i hzero
    rw [hzero, Nat.cast_zero, zero_div, add_zero]
    exact reads_exact _
  · rename_i hne
    have hrpos : (0 : ℚ) < r := by exact_mod_cast Nat.pos_of_ne_zero hne
    -- the remainder is compared with a half of the divisor
    cases hcompare : compare (2 * r) n with
    | lt =>
      have hhalf : (2 * r : ℚ) < n := by exact_mod_cast Nat.compare_eq_lt.mp hcompare
      refine ⟨r / n, by simp [ExtendedMantissa.ofMantissaAndAccuracy], by positivity, ?_,
        iff_of_true (by positivity) rfl⟩
      rw [div_lt_div_iff₀ hpos two_pos]
      linarith
    | eq =>
      have hhalf : (2 * r : ℚ) = n := by exact_mod_cast Nat.compare_eq_eq.mp hcompare
      refine ⟨0, ?_, le_rfl, by norm_num, iff_of_false (lt_irrefl 0) nofun⟩
      simp only [ExtendedMantissa.ofMantissaAndAccuracy, if_true, add_zero, ← hhalf]
      congr 1
      field_simp
    | gt =>
      have hhalf : (n : ℚ) < 2 * r := by exact_mod_cast Nat.compare_eq_gt.mp hcompare
      have hlow : (1 : ℚ) / 2 < r / n := by
        rw [div_lt_div_iff₀ two_pos hpos]
        linarith
      refine ⟨r / n - 1 / 2, ?_, by linarith, ?_, iff_of_true (by linarith) rfl⟩
      · simp only [ExtendedMantissa.ofMantissaAndAccuracy, if_true]
        linarith
      · rw [sub_lt_iff_lt_add, div_lt_iff₀ hpos]
        linarith

/-! ### Numbers of the format -/

/-- The factor of a sign. -/
def factor : Sign → ℚ
  | .positive => 1
  | .negative => -1

theorem abs_factor (s : Sign) : |factor s| = 1 := by
  cases s <;> simp [factor]

theorem factor_mul (s t : Sign) : factor (s * t) = factor s * factor t := by
  cases s <;> cases t <;> simp [factor]

theorem factor_div (s t : Sign) : factor (s / t) = factor s / factor t := by
  cases s <;> cases t <;> simp [factor] <;> rfl

theorem apply_eq_factor_mul (s : Sign) (m : ℤ) : (s.apply m : ℚ) = factor s * m := by
  cases s <;> simp [factor, Sign.apply]

/-- The exact value of a number, and zero for what is infinite or undefined. -/
def exactOf : UnpackedFloat → ℚ
  | .finite s m e _ => factor s * (m * 2 ^ e)
  | _ => 0

/-- A number in the form of the format, whose exponent may be too great for it. -/
def Canonical : UnpackedFloat → Prop
  | .finite _ m e _ => m < 2 ^ 53 ∧ ∃ k : ℕ, e = k - 1074 ∧ (k = 0 ∨ 2 ^ 52 ≤ m)
  | .zero _ => True
  | _ => False

/-- **Within half a unit in the last place**: that unit is the least positive double, unless the number
is at least `2 ^ 52` units. -/
def HalfUnit (q v : ℚ) : Prop :=
  ∃ t : ℕ, (t = 0 ∨ 2 ^ (t - 1022 : ℤ) ≤ |q|) ∧ |q - v| ≤ 2 ^ (t - 1075 : ℤ)

theorem two_zpow_sub (t : ℕ) (k j : ℤ) : (2 : ℚ) ^ (t - (k + j)) = 2 ^ (t - k) / 2 ^ j := by
  rw [← sub_sub, zpow_sub₀ two_ne_zero]

/-- The error is relative, apart from half of the least positive double. -/
theorem HalfUnit.abs_sub_le {q v : ℚ} (h : HalfUnit q v) :
    |q - v| ≤ |q| / 2 ^ 53 + 2 ^ (-1075 : ℤ) := by
  obtain ⟨t, rfl | hlow, hle⟩ := h
  · have hnonneg : 0 ≤ |q| / 2 ^ 53 := by positivity
    simp only [Nat.cast_zero, zero_sub] at hle
    linarith
  · have hscale := two_zpow_sub t 1022 53
    have hpos : (0 : ℚ) < 2 ^ (-1075 : ℤ) := by positivity
    rw [show (1022 + 53 : ℤ) = 1075 from rfl, zpow_ofNat] at hscale
    rw [hscale] at hle
    have hdiv := div_le_div_of_nonneg_right hlow (show (0 : ℚ) ≤ 2 ^ 53 by positivity)
    linarith

/-- For a whole number of units the error is relative. -/
theorem HalfUnit.abs_sub_le_of_units {q v : ℚ} (h : HalfUnit q v) {a b : ℤ}
    (hq : q = a * 2 ^ (-1074 : ℤ)) (hv : v = b * 2 ^ (-1074 : ℤ)) : |q - v| ≤ |q| / 2 ^ 53 := by
  obtain ⟨t, rfl | hlow, hle⟩ := h
  · -- whole numbers at half a unit from each other are equal
    have hunit : (0 : ℚ) < 2 ^ (-1074 : ℤ) := by positivity
    have hhalf : (2 : ℚ) ^ ((0 : ℕ) - 1075 : ℤ) = 1 / 2 * 2 ^ (-1074 : ℤ) := by
      rw [show ((0 : ℕ) - 1075 : ℤ) = -1074 - 1 from rfl, zpow_sub₀ two_ne_zero]
      ring
    rw [hq, hv, ← sub_mul, abs_mul, abs_of_pos hunit, hhalf] at hle
    have hclose : |((a - b : ℤ) : ℚ)| < 1 := by
      push_cast
      linarith [le_of_mul_le_mul_right hle hunit]
    have heq : a - b = 0 := Int.abs_lt_one_iff.mp (by exact_mod_cast hclose)
    rw [hq, hv, sub_eq_zero.mp heq, sub_self, abs_zero]
    positivity
  · have hscale := two_zpow_sub t 1022 53
    rw [show (1022 + 53 : ℤ) = 1075 from rfl, zpow_ofNat] at hscale
    rw [hscale] at hle
    exact hle.trans (div_le_div_of_nonneg_right hlow (by positivity))

/-! ### Rounding to the format -/

/-- A number of at most 53 bits keeps its exponent. -/
theorem shiftToTargetExponent_of_lt {r t : ℕ} (hr : r < 2 ^ 53) :
    shiftToTargetExponent .binary64 r (t - 1074) .exact = (⟨r, false, false⟩, (t : ℤ) - 1074) := by
  have hlog : r.log2 ≤ 52 := by
    rcases Nat.eq_zero_or_pos r with rfl | hpos
    · decide
    · exact Nat.le_of_lt_succ ((Nat.log2_lt hpos.ne').mpr hr)
  have htarget : (Format.targetExponent .binary64 (totalExponent r (t - 1074))
      - ((t : ℤ) - 1074)).toNat = 0 := by
    simp only [Format.targetExponent, totalExponent, Format.mantissaBits, Format.minExponent]
    omega
  simp only [shiftToTargetExponent, shiftToExponent, htarget, Nat.cast_zero, add_zero]
  rfl

/-- The power of two with one bit more is shifted by that bit. -/
theorem shiftToTargetExponent_carry (t : ℕ) :
    shiftToTargetExponent .binary64 (2 ^ 53) (t - 1074) .exact
      = (⟨2 ^ 52, false, false⟩, ((t + 1 : ℕ) : ℤ) - 1074) := by
  have htarget : (Format.targetExponent .binary64 (totalExponent (2 ^ 53) (t - 1074))
      - ((t : ℤ) - 1074)).toNat = 1 := by
    simp only [Format.targetExponent, totalExponent, Format.mantissaBits, Format.minExponent,
      Nat.log2_two_pow]
    omega
  simp only [shiftToTargetExponent, shiftToExponent, htarget]
  refine Prod.ext rfl ?_
  push_cast
  ring

/-- **Rounding leaves a number of the format, within half a unit in the last place**, when the mantissa has
no fewer bits than the format asks for. -/
theorem halfUnit_roundWithAccuracy (s : Sign) {m : ℕ} {e : ℤ} {a : Accuracy}
    (hz : Reads (.ofMantissaAndAccuracy m a) z)
    (he : e ≤ Format.targetExponent .binary64 (totalExponent m e)) :
    Canonical (roundWithAccuracy .binary64 s m e a)
      ∧ HalfUnit (factor s * (z * 2 ^ e)) (exactOf (roundWithAccuracy .binary64 s m e a)) := by
  have hmantissa : (ExtendedMantissa.ofMantissaAndAccuracy m a).mantissa = m := by
    rcases a with _ | (_ | _ | _) <;> rfl
  -- the exponent of the result, and the bits that are dropped for it
  obtain ⟨t, ht⟩ : ∃ t : ℕ, Format.targetExponent .binary64 (totalExponent m e) = t - 1074 :=
    ⟨(Format.targetExponent .binary64 (totalExponent m e) + 1074).toNat, by
      simp only [Format.targetExponent, totalExponent, Format.mantissaBits, Format.minExponent]
      omega⟩
  obtain ⟨k, hk⟩ : ∃ k : ℕ, e + k = t - 1074 := ⟨(t - 1074 - e).toNat, by omega⟩
  have hshift : shiftToTargetExponent .binary64 m e a
      = (ExtendedMantissa.ofMantissaAndAccuracy m a >>> k, (t : ℤ) - 1074) := by
    have htoNat : ((t : ℤ) - 1074 - e).toNat = k := by omega
    simp only [shiftToTargetExponent, shiftToExponent, ht, htoNat, hk]
  have hlog : m.log2 + 1 ≤ 53 + k ∧ (t = 0 ∨ m.log2 = 52 + k) := by
    simp only [Format.targetExponent, totalExponent, Format.mantissaBits, Format.minExponent] at ht
    omega
  have hpow : (0 : ℚ) < 2 ^ k := by positivity
  have hhigh : z / 2 ^ k < 2 ^ 53 := by
    have hlt : m + 1 ≤ 2 ^ (53 + k) :=
      Nat.succ_le_of_lt (Nat.lt_log2_self.trans_le (Nat.pow_le_pow_right (by decide) hlog.1))
    have hz' := hz.lt_mantissa_add_one
    rw [hmantissa] at hz'
    rw [div_lt_iff₀ hpow, ← pow_add]
    exact hz'.trans_le (by exact_mod_cast hlt)
  have hlow : t = 0 ∨ (2 : ℚ) ^ 52 ≤ z / 2 ^ k := by
    refine hlog.2.imp_right fun hbits => ?_
    have hm : m ≠ 0 := by
      rintro rfl
      rw [Nat.log2_zero] at hbits
      omega
    have hle : 2 ^ (52 + k) ≤ m := hbits ▸ Nat.log2_self_le hm
    have hz' := hz.mantissa_le
    rw [hmantissa] at hz'
    rw [le_div_iff₀ hpow, ← pow_add]
    exact le_trans (by exact_mod_cast hle) hz'
  have hread := (hz.shiftRight k).abs_sub_roundedMantissa_le
  generalize hr : (ExtendedMantissa.ofMantissaAndAccuracy m a >>> k).roundedMantissa = r at hread
  have hr53 : r ≤ 2 ^ 53 := by
    rw [abs_le] at hread
    have hlt : (r : ℚ) < 2 ^ 53 + 1 := by linarith
    exact Nat.le_of_lt_succ (by exact_mod_cast hlt)
  have hr52 : t = 0 ∨ 2 ^ 52 ≤ r := by
    refine hlow.imp_right fun h => ?_
    rw [abs_le] at hread
    have hlt : (2 ^ 52 : ℚ) < r + 1 := by linarith
    exact Nat.le_of_lt_succ (by exact_mod_cast hlt)
  -- the result is the rounded mantissa at that exponent, in one form or another
  have hresult : Canonical (roundWithAccuracy .binary64 s m e a)
      ∧ exactOf (roundWithAccuracy .binary64 s m e a) = factor s * (r * 2 ^ (t - 1074 : ℤ)) := by
    rcases Nat.lt_or_ge r (2 ^ 53) with hlt | hge
    · simp only [roundWithAccuracy, hshift, hr, shiftToTargetExponent_of_lt hlt]
      split
      · rename_i hzero
        simp [Canonical, exactOf, hzero]
      · exact ⟨⟨hlt, t, rfl, hr52⟩, rfl⟩
    · obtain rfl : r = 2 ^ 53 := le_antisymm hr53 hge
      simp only [roundWithAccuracy, hshift, hr, shiftToTargetExponent_carry]
      refine ⟨⟨by decide, t + 1, rfl, .inr le_rfl⟩, ?_⟩
      show factor s * ((2 ^ 52 : ℕ) * 2 ^ ((t + 1 : ℕ) - 1074 : ℤ)) = _
      rw [Nat.cast_succ, add_sub_right_comm, zpow_add_one₀ two_ne_zero]
      push_cast
      ring
  have hscale : z * 2 ^ e = z / 2 ^ k * 2 ^ (t - 1074 : ℤ) := by
    rw [← hk, zpow_add₀ two_ne_zero, zpow_natCast, div_mul_eq_mul_div, ← mul_assoc,
      mul_div_cancel_right₀ _ hpow.ne']
  have hunit : (0 : ℚ) < 2 ^ (t - 1074 : ℤ) := by positivity
  refine ⟨hresult.1, t, hlow.imp_right fun h => ?_, ?_⟩
  · have hpower : (2 : ℚ) ^ (t - 1022 : ℤ) = 2 ^ 52 * 2 ^ (t - 1074 : ℤ) := by
      rw [← zpow_natCast, ← zpow_add₀ two_ne_zero]
      congr 1
      push_cast
      ring
    rw [abs_mul, abs_factor, one_mul, hscale, abs_mul, abs_of_pos hunit, hpower]
    exact mul_le_mul_of_nonneg_right (h.trans (le_abs_self _)) hunit.le
  · rw [hresult.2, ← mul_sub, abs_mul, abs_factor, one_mul, hscale, ← sub_mul, abs_mul,
      abs_of_pos hunit, show (1075 : ℤ) = 1074 + 1 from rfl, two_zpow_sub, zpow_one]
    linarith [mul_le_mul_of_nonneg_right hread hunit.le]

/-! ### Operations -/

theorem HalfUnit.zero : HalfUnit 0 0 := ⟨0, .inl rfl, by simp⟩

@[simp] theorem exactOf_zero (s : Sign) : exactOf (.zero s) = 0 := rfl

theorem exactOf_finite (s : Sign) {m : ℕ} {e : ℤ} (h : 0 < m) :
    exactOf (.finite s m e h) = factor s * (m * 2 ^ e) := rfl

/-- A number of the format is a whole number of units. -/
theorem Canonical.exists_units {u : UnpackedFloat} (hu : Canonical u) :
    ∃ b : ℤ, exactOf u = b * 2 ^ (-1074 : ℤ) := by
  cases u with
  | notANumber => exact hu.elim
  | infinity s => exact hu.elim
  | zero s => exact ⟨0, by simp [exactOf]⟩
  | finite s m e h =>
    obtain ⟨-, k, rfl, -⟩ := hu
    refine ⟨s.apply (m * 2 ^ k), ?_⟩
    rw [exactOf_finite, apply_eq_factor_mul, sub_eq_add_neg, zpow_add₀ two_ne_zero, zpow_natCast,
      ← mul_assoc, ← mul_assoc, mul_assoc (factor s)]
    norm_cast

/-- Zeros behind a mantissa are counted by its length. -/
theorem totalExponent_shiftLeft {m : ℕ} (hm : 0 < m) (i : ℕ) (e : ℤ) :
    totalExponent (m <<< i) (e - i) = totalExponent m e := by
  have hlog : (m <<< i).log2 = m.log2 + i := by
    rw [Nat.shiftLeft_eq]
    refine (Nat.log2_eq_iff (Nat.mul_pos hm (Nat.two_pow_pos i)).ne').mpr ⟨?_, ?_⟩
    · rw [pow_add]
      exact Nat.mul_le_mul_right _ (Nat.log2_self_le hm.ne')
    · rw [Nat.add_right_comm, pow_add]
      exact Nat.mul_lt_mul_of_pos_right Nat.lt_log2_self (Nat.two_pow_pos i)
  rw [totalExponent, totalExponent, hlog]
  omega

theorem shiftLeft_mul_zpow (m i : ℕ) (e : ℤ) :
    ((m <<< i : ℕ) : ℚ) * 2 ^ (e - i) = m * 2 ^ e := by
  rw [Nat.shiftLeft_eq, Nat.cast_mul, Nat.cast_pow, Nat.cast_two, zpow_sub₀ two_ne_zero, zpow_natCast,
    mul_assoc, mul_div_cancel₀ _ (by positivity)]

theorem halfUnit_round (s : Sign) {m : ℕ} (hm : 0 < m) (e : ℤ) :
    Canonical (UnpackedFloat.round .binary64 s m e)
      ∧ HalfUnit (factor s * (m * 2 ^ e)) (exactOf (UnpackedFloat.round .binary64 s m e)) := by
  obtain ⟨i, hi⟩ : ∃ i, i = (e - Format.targetExponent .binary64 (totalExponent m e)).toNat := ⟨_, rfl⟩
  have hround := halfUnit_roundWithAccuracy s (e := e - i) (reads_exact (m <<< i))
    (by rw [totalExponent_shiftLeft hm]; omega)
  rw [shiftLeft_mul_zpow] at hround
  simpa only [UnpackedFloat.round, decreaseExponent, ← hi] using hround

theorem halfUnit_normalize (m e : ℤ) (z : Sign) :
    Canonical (UnpackedFloat.normalize .binary64 m e z)
      ∧ HalfUnit (m * 2 ^ e) (exactOf (UnpackedFloat.normalize .binary64 m e z)) := by
  rw [UnpackedFloat.normalize]
  cases hm : compare m 0 with
  | lt =>
    have hneg := Int.compare_eq_lt.mp hm
    have hcast : (((-m).toNat : ℕ) : ℚ) = -m := by exact_mod_cast Int.toNat_of_nonneg (by omega)
    have hround := halfUnit_round .negative (m := (-m).toNat) (by omega) e
    rwa [hcast, factor, neg_mul, neg_mul, one_mul, neg_neg] at hround
  | eq =>
    rw [Int.compare_eq_eq.mp hm, Int.cast_zero, zero_mul]
    exact ⟨trivial, .zero⟩
  | gt =>
    have hpos := Int.compare_eq_gt.mp hm
    have hcast : ((m.toNat : ℕ) : ℚ) = m := by exact_mod_cast Int.toNat_of_nonneg (by omega)
    have hround := halfUnit_round .positive (m := m.toNat) (by omega) e
    rwa [hcast, factor, one_mul] at hround

section Operations

variable {u v : UnpackedFloat} (hu : Canonical u) (hv : Canonical v)

include hu hv

/-- **A sum is rounded to the format, with a relative error**: where it is small, it is exact. -/
theorem abs_sub_exactOf_add_le : Canonical (UnpackedFloat.add .binary64 u v)
    ∧ |exactOf u + exactOf v - exactOf (UnpackedFloat.add .binary64 u v)|
      ≤ |exactOf u + exactOf v| / 2 ^ 53 := by
  -- what is no rounding at all is exact
  have hself : ∀ {q w : ℚ}, q = w → |q - w| ≤ |q| / 2 ^ 53 := by
    rintro q _ rfl
    rw [sub_self, abs_zero]
    positivity
  obtain ⟨a, ha⟩ := hu.exists_units
  obtain ⟨b, hb⟩ := hv.exists_units
  cases u with
  | notANumber => exact hu.elim
  | infinity s => exact hu.elim
  | zero s =>
    cases v with
    | notANumber => exact hv.elim
    | infinity t => exact hv.elim
    | zero t => cases s <;> cases t <;> exact ⟨trivial, hself (add_zero 0)⟩
    | finite t n f hn => exact ⟨hv, hself (zero_add _)⟩
  | finite s m e hm =>
    cases v with
    | notANumber => exact hv.elim
    | infinity t => exact hv.elim
    | zero t => exact ⟨hu, hself (add_zero _)⟩
    | finite t n f hn =>
      -- both mantissas are brought to the smaller exponent and added there
      obtain ⟨i, hi⟩ : ∃ i, i = (e - min e f).toNat := ⟨_, rfl⟩
      obtain ⟨j, hj⟩ : ∃ j, j = (f - min e f).toNat := ⟨_, rfl⟩
      have hadd : UnpackedFloat.add .binary64 (.finite s m e hm) (.finite t n f hn)
          = UnpackedFloat.normalize .binary64 (s.apply (m <<< i : ℕ) + t.apply (n <<< j : ℕ))
            (min e f) .positive := by
        simp only [UnpackedFloat.add, decreaseExponent, ← hi, ← hj]
      have hsum : ((s.apply (m <<< i : ℕ) + t.apply (n <<< j : ℕ) : ℤ) : ℚ) * 2 ^ min e f
          = exactOf (.finite s m e hm) + exactOf (.finite t n f hn) := by
        have hei : e - i = min e f := by omega
        have hfj : f - j = min e f := by omega
        rw [exactOf_finite, exactOf_finite, ← shiftLeft_mul_zpow m i, ← shiftLeft_mul_zpow n j, hei, hfj,
          Int.cast_add, apply_eq_factor_mul, apply_eq_factor_mul, Int.cast_natCast, Int.cast_natCast]
        ring
      obtain ⟨hcanonical, hhalf⟩ := halfUnit_normalize (s.apply (m <<< i : ℕ) + t.apply (n <<< j : ℕ))
        (min e f) .positive
      rw [← hadd] at hcanonical hhalf
      rw [hsum] at hhalf
      obtain ⟨c, hc⟩ := hcanonical.exists_units
      refine ⟨hcanonical, hhalf.abs_sub_le_of_units (a := a + b) ?_ hc⟩
      rw [ha, hb, Int.cast_add, add_mul]

/-- **A product is rounded to the format.** -/
theorem halfUnit_mul : Canonical (UnpackedFloat.mul .binary64 u v)
    ∧ HalfUnit (exactOf u * exactOf v) (exactOf (UnpackedFloat.mul .binary64 u v)) := by
  cases u with
  | notANumber => exact hu.elim
  | infinity s => exact hu.elim
  | zero s =>
    rw [exactOf_zero, zero_mul]
    cases v with
    | notANumber => exact hv.elim
    | infinity t => exact hv.elim
    | zero t => exact ⟨trivial, .zero⟩
    | finite t n f hn => exact ⟨trivial, .zero⟩
  | finite s m e hm =>
    cases v with
    | notANumber => exact hv.elim
    | infinity t => exact hv.elim
    | zero t =>
      rw [exactOf_zero, mul_zero]
      exact ⟨trivial, .zero⟩
    | finite t n f hn =>
      obtain ⟨-, k, rfl, hk⟩ := hu
      obtain ⟨-, l, rfl, hl⟩ := hv
      -- with a factor of 53 bits the product has as many, otherwise its exponent is that low
      have hlog : k = 0 ∧ l = 0 ∨ 52 ≤ (m * n).log2 := by
        have hprod : (m * n) ≠ 0 := (Nat.mul_pos hm hn).ne'
        rcases hk with rfl | hk
        · rcases hl with rfl | hl
          · exact .inl ⟨rfl, rfl⟩
          · exact .inr ((Nat.le_log2 hprod).mpr (hl.trans (Nat.le_mul_of_pos_left n hm)))
        · exact .inr ((Nat.le_log2 hprod).mpr (hk.trans (Nat.le_mul_of_pos_right m hn)))
      have hround := halfUnit_roundWithAccuracy (s * t) (e := (k : ℤ) - 1074 + (l - 1074))
        (reads_exact (m * n)) (by
          simp only [Format.targetExponent, totalExponent, Format.mantissaBits, Format.minExponent]
          omega)
      have hexact : factor (s * t) * (((m * n : ℕ) : ℚ) * 2 ^ ((k : ℤ) - 1074 + (l - 1074)))
          = exactOf (.finite s m (k - 1074) hm) * exactOf (.finite t n (l - 1074) hn) := by
        rw [exactOf_finite, exactOf_finite, factor_mul, zpow_add₀ two_ne_zero, Nat.cast_mul]
        ring
      rw [hexact] at hround
      exact hround

/-- **A quotient is rounded to the format.** -/
theorem halfUnit_div (hne : exactOf v ≠ 0) : Canonical (UnpackedFloat.div .binary64 u v)
    ∧ HalfUnit (exactOf u / exactOf v) (exactOf (UnpackedFloat.div .binary64 u v)) := by
  cases v with
  | notANumber => exact hv.elim
  | infinity t => exact hv.elim
  | zero t => exact absurd rfl hne
  | finite t n f hn =>
    cases u with
    | notANumber => exact hu.elim
    | infinity s => exact hu.elim
    | zero s =>
      rw [exactOf_zero, zero_div]
      exact ⟨trivial, .zero⟩
    | finite s m e hm =>
      obtain ⟨q, hq⟩ : ∃ q, q = min (e - f) (Format.targetExponent .binary64
        (totalExponent m e - totalExponent n f)) := ⟨_, rfl⟩
      obtain ⟨i, hi⟩ : ∃ i, i = (e - f - q).toNat := ⟨_, rfl⟩
      have hdiv : UnpackedFloat.div .binary64 (.finite s m e hm) (.finite t n f hn)
          = roundWithAccuracy .binary64 (s / t) ((m <<< i) / n) q
            (accuracyOfFraction ((m <<< i) % n) n) := by
        simp only [UnpackedFloat.div, divCore, ← hq, ← hi]
      -- unless the exponent is the least one, the quotient has 53 bits
      have hlog : q ≤ -1074 ∨ 52 ≤ ((m <<< i) / n).log2 := by
        rcases Int.lt_or_le (-1074) q with hlow | hle
        · right
          have hbits : n.log2 + 1 + 52 ≤ m.log2 + i := by
            simp only [Format.targetExponent, totalExponent, Format.mantissaBits, Format.minExponent] at hq
            omega
          have hge : 2 ^ 52 ≤ (m <<< i) / n := by
            rw [Nat.le_div_iff_mul_le hn, Nat.shiftLeft_eq]
            calc 2 ^ 52 * n ≤ 2 ^ 52 * 2 ^ (n.log2 + 1) := Nat.mul_le_mul_left _ Nat.lt_log2_self.le
              _ ≤ 2 ^ (m.log2 + i) := by
                rw [← pow_add]
                exact Nat.pow_le_pow_right (by decide) (by omega)
              _ ≤ m * 2 ^ i := by
                rw [pow_add]
                exact Nat.mul_le_mul_right _ (Nat.log2_self_le hm.ne')
          exact (Nat.le_log2 (by omega)).mpr hge
        · exact .inl hle
      have hround := halfUnit_roundWithAccuracy (s / t) (e := q) (reads_fraction (m <<< i) hn) (by
        simp only [Format.targetExponent, totalExponent, Format.mantissaBits, Format.minExponent]
        omega)
      have hexact : factor (s / t) * (((m <<< i : ℕ) : ℚ) / n * 2 ^ q)
          = exactOf (.finite s m e hm) / exactOf (.finite t n f hn) := by
        have hqi : q = e - i - f := by omega
        rw [exactOf_finite, exactOf_finite, factor_div, hqi, zpow_sub₀ two_ne_zero, div_mul_div_comm,
          shiftLeft_mul_zpow, div_mul_div_comm]
      rw [hdiv, ← hexact]
      exact hround

end Operations

end Double

end RelationalLP
