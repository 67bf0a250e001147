import Mathlib
import RelationalLP.Proofs.Number.RelativeRounding
import RelationalLP.Proofs.Symmetry.IncidenceColors

/-! # Rounded colours

Doubles of one colour have one colour key, the number rounded to six decimals. The key is finite exactly
when its number is. It is computed in doubles, so it is off by half a millionth and by a rounding error that
grows with the number: doubles of one key differ by a millionth and by that error. -/

namespace RelationalLP

namespace Double

/-! ### Finite keys -/

theorem ofInt_million : (Scalar.ofInt 1000000 : Double) = ⟨0x412e848000000000⟩ := by
  decide +kernel

theorem greatest_div_million :
    (Scalar.greatest / Scalar.ofInt 1000000 : Double) = ⟨0x7eb0c6f7a0b5ed8d⟩ := by
  decide +kernel

theorem value_million : (Scalar.ofInt 1000000 : Double).value
    = .finite .positive 8589934592000000 (-33) (by decide) := by
  rw [ofInt_million]
  rfl

/-- Below a millionth of the greatest number a million times the number is finite. -/
theorem isFinite_mul_million {x : Double} (hx : x.isFinite)
    (h : (Scalar.abs x : Double) < Scalar.greatest / Scalar.ofInt 1000000) :
    (x * Scalar.ofInt 1000000).isFinite := by
  have hmul : x * Scalar.ofInt 1000000
      = ofFloat (x.toFloat * (Scalar.ofInt 1000000 : Double).toFloat) :=
    combine_of_isFinite (· * ·) hx (by rw [ofInt_million]; rfl)
  rw [greatest_div_million] at h
  have hlt := magnitude_lt_of_abs_lt (by decide) h
  rw [hmul, isFinite_ofFloat]
  refine isFinite_mul ((unpack_toFloat _).trans value_million)
    (by rwa [unpack_toFloat, ← isFinite_eq_value]) fun {s m e hm} hf => ?_
  rw [unpack_toFloat] at hf
  -- patterns are ordered like numbers, so the comparison bounds exponent and mantissa
  obtain ⟨k, hk, rfl, hm53, hnormal, hbits⟩ := unpack_eq_finite hf
  rw [UInt64.lt_iff_toNat_lt, toNat_magnitude, toNat_magnitude] at hlt
  simp only [UInt64.reduceToNat] at hlt
  have hbits : x.bits.toNat % 2 ^ 63 = 2 ^ 52 * k + m := hbits
  refine ⟨2077 - k, by omega, ?_⟩
  -- only with the greatest exponent in question does the mantissa matter
  rcases Nat.lt_or_ge k 2026 with hk' | hk'
  · have hpow : 2 ^ 52 ≤ 2 ^ (2077 - k) := Nat.pow_le_pow_right (by decide) (by omega)
    generalize 2 ^ (2077 - k) = p at hpow ⊢
    omega
  · obtain rfl : k = 2026 := by omega
    omega

/-- A millionth of a finite number is finite. -/
theorem isFinite_div_million {x : Double} (hx : x.isFinite) :
    (x / Scalar.ofInt 1000000).isFinite := by
  have hdiv : x / Scalar.ofInt 1000000
      = ofFloat (x.toFloat / (Scalar.ofInt 1000000 : Double).toFloat) :=
    combine_of_isFinite (· / ·) hx (by rw [ofInt_million]; rfl)
  rw [hdiv, isFinite_ofFloat]
  exact isFinite_div ((unpack_toFloat _).trans value_million) (by decide)
    (by rwa [unpack_toFloat, ← isFinite_eq_value])

/-- **A colour key is finite exactly when its number is.** -/
theorem isFinite_colorKey (x : Double) : (colorKey x).isFinite = x.isFinite := by
  have hzero : ∀ k : Double, (if Scalar.isZero k then 0 else k).isFinite = k.isFinite := by
    intro k
    split
    · rename_i hk
      rw [isFinite_of_isZero hk]
      rfl
    · rfl
  have hkey : (colorKey x).isFinite
      = (if Scalar.abs x < (Scalar.greatest / Scalar.ofInt 1000000 : Double)
          then Scalar.round (x * Scalar.ofInt 1000000) / Scalar.ofInt 1000000 else x).isFinite :=
    hzero _
  rw [hkey]
  split
  · rename_i hlt
    have hx : x.isFinite := by
      have hmagnitude := magnitude_lt_of_abs_lt (by decide +kernel) hlt
      rw [greatest_div_million] at hmagnitude
      rw [isFinite, decide_eq_true_eq]
      exact UInt64.lt_trans hmagnitude (by decide)
    rw [hx]
    exact isFinite_div_million (isFinite_round (isFinite_mul_million hx hlt))
  · rfl

/-! ### Distances -/

theorem exact_million : (Scalar.ofInt 1000000 : Double).exact = 1000000 := by
  rw [exact_eq_exactOf (by rw [ofInt_million]; rfl), value_million, exactOf_finite, factor]
  norm_num

/-- A key is the rounded number, also when that is a negated zero. -/
theorem exact_colorKey (v : Double) : (colorKey v).exact
    = (if Scalar.abs v < (Scalar.greatest / Scalar.ofInt 1000000 : Double)
        then Scalar.round (v * Scalar.ofInt 1000000) / Scalar.ofInt 1000000 else v).exact := by
  have hzero : ∀ k : Double, (if Scalar.isZero k then 0 else k).exact = k.exact := by
    intro k
    split
    · rename_i hk
      rw [exact_of_isZero hk, exact_of_isZero (by decide)]
    · rfl
  exact hzero _

/-- A number that is multiplied by a million, rounded and divided again, each time up to an error of the
format, is off by half a millionth and by the errors. A number that is less than that is rounded to zero. -/
theorem abs_sub_rounded_le {v a k : ℚ} {n : ℤ}
    (hmul : |v * 1000000 - a| ≤ |v * 1000000| / 2 ^ 53 + 2 ^ (-1075 : ℤ)) (hround : |a - n| ≤ 1 / 2)
    (hdiv : |(n : ℚ) / 1000000 - k| ≤ |(n : ℚ) / 1000000| / 2 ^ 53 + 2 ^ (-1075 : ℤ)) :
    |v - k| ≤ 9 / 20000000 ∨ 1 / 2500000 < |v| ∧ |v - k| ≤ 1 / 2000000 + |v| / 2 ^ 51 := by
  have htiny : (2 : ℚ) ^ (-1075 : ℤ) ≤ 1 / 2 ^ 100 := by
    rw [zpow_neg, zpow_ofNat, one_div]
    exact inv_anti₀ (by positivity) (pow_le_pow_right₀ one_le_two (by decide))
  generalize (2 : ℚ) ^ (-1075 : ℤ) = tiny at *
  rw [abs_mul, abs_of_pos (show (0 : ℚ) < 1000000 by norm_num)] at hmul
  rcases le_or_gt |v| (1 / 2500000) with hsmall | hlarge
  · -- the product is less than a half, so it is rounded to zero
    have hsize := abs_sub_abs_le_abs_sub a (v * 1000000)
    rw [abs_sub_comm a, abs_mul, abs_of_pos (show (0 : ℚ) < 1000000 by norm_num)] at hsize
    have hn := abs_sub_abs_le_abs_sub (n : ℚ) a
    rw [abs_sub_comm (n : ℚ)] at hn
    have hzero : |(n : ℚ)| < 1 := by linarith
    obtain rfl : n = 0 := Int.abs_lt_one_iff.mp (by exact_mod_cast hzero)
    rw [Int.cast_zero, zero_div, abs_zero, zero_div, zero_sub, abs_neg] at hdiv
    exact .inl (by linarith [abs_sub v k])
  · refine .inr ⟨hlarge, ?_⟩
    have hscaled : |v * 1000000 - n| = |v - n / 1000000| * 1000000 := by
      have hmillion : (0 : ℚ) < 1000000 := by norm_num
      rw [show v * 1000000 - n = (v - n / 1000000) * 1000000 by ring, abs_mul, abs_of_pos hmillion]
    have hsteps := abs_sub_le (v * 1000000) a n
    have hwhole := abs_sub_abs_le_abs_sub ((n : ℚ) / 1000000) v
    rw [abs_sub_comm _ v] at hwhole
    linarith [abs_sub_le v (n / 1000000) k]

/-- **A key is near its number.** It is nearer than half a millionth where the number is less than that, and
elsewhere it may be farther by a rounding error. -/
theorem abs_sub_colorKey_le {v : Double} (hv : v.isFinite) :
    |v.exact - (colorKey v).exact| ≤ 9 / 20000000
      ∨ 1 / 2500000 < |v.exact|
        ∧ |v.exact - (colorKey v).exact| ≤ 1 / 2000000 + |v.exact| / 2 ^ 51 := by
  rw [exact_colorKey]
  split
  · rename_i hlt
    have hmillion : (Scalar.ofInt 1000000 : Double).isFinite := by rw [ofInt_million]; rfl
    have hproduct := isFinite_mul_million hv hlt
    have hrounded : (Scalar.round (v * Scalar.ofInt 1000000) : Double).isFinite := isFinite_round hproduct
    obtain ⟨n, hn, hround⟩ := exists_exact_round hproduct
    have hn : (Scalar.round (v * Scalar.ofInt 1000000) : Double).exact = n := hn
    have hmul := abs_sub_exact_mul_le hv hmillion hproduct
    have hdiv := abs_sub_exact_div_le hrounded hmillion (by rw [exact_million]; norm_num)
      (isFinite_div_million hrounded)
    rw [exact_million] at hmul hdiv
    rw [hn] at hdiv
    exact abs_sub_rounded_le hmul hround hdiv
  · rw [sub_self, abs_zero]
    exact .inl (by norm_num)

/-- **Doubles of one key** differ by a millionth, and by a rounding error. -/
theorem abs_sub_le_of_colorKey_eq {v w : Double} (hv : v.isFinite) (hw : w.isFinite)
    (h : colorKey v = colorKey w) : |v.exact - w.exact| ≤ 1 / 1000000 + |v.exact| / 2 ^ 48 := by
  have hvk := abs_sub_colorKey_le hv
  have hwk := abs_sub_colorKey_le hw
  rw [h] at hvk
  have hdist := abs_sub_le v.exact (colorKey w).exact w.exact
  rw [abs_sub_comm (colorKey w).exact] at hdist
  have hsize := abs_sub_abs_le_abs_sub w.exact v.exact
  rw [abs_sub_comm w.exact] at hsize
  have hnonneg := abs_nonneg v.exact
  rcases hvk with hvk | ⟨hv4, hvk⟩ <;> rcases hwk with hwk | ⟨hw4, hwk⟩ <;> linarith

end Double

end RelationalLP
