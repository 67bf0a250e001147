import Mathlib
import RelationalLP.Proofs.Number.DoubleValues

/-! # Integers as doubles

Rounding keeps the first 53 bits of a number. Hence integers below `2 ^ 53` are doubles themselves, and
those above are rounded to doubles that are no smaller than `2 ^ 53`. -/

namespace RelationalLP

open Float.Model Float.Model.UnpackedFloat

namespace Double

/-! ### Rounding -/

theorem le_roundedMantissa (em : ExtendedMantissa) : em.mantissa ≤ em.roundedMantissa := by
  obtain ⟨m, round, sticky⟩ := em
  cases round <;> cases sticky <;>
    simp [ExtendedMantissa.roundedMantissa, ExtendedMantissa.accuracy, Accuracy.roundToNearestEven]

/-- The exponent of a number of at least 53 bits leaves 53 of them. -/
theorem targetExponent_eq {m : ℕ} {e : ℤ} (hm : 2 ^ 52 ≤ m) (he : -1074 ≤ e) :
    Format.targetExponent .binary64 (totalExponent m e) = e + (m.log2 - 52 : ℕ) := by
  have hlog : 52 ≤ m.log2 := (Nat.le_log2 (by omega)).mpr hm
  simp only [Format.targetExponent, totalExponent, Format.mantissaBits, Format.minExponent]
  omega

/-- **Rounding a number of at least 53 bits** leaves its first 53 bits, the last one rounded. -/
theorem roundWithAccuracy_eq (s : Sign) {m r : ℕ} {e : ℤ} (hm : 2 ^ 52 ≤ m) (he : -1074 ≤ e)
    (hr : (ExtendedMantissa.mk m false false >>> (m.log2 - 52)).roundedMantissa = r)
    (hlow : 2 ^ 52 ≤ r) :
    ∃ h, roundWithAccuracy .binary64 s m e .exact
      = .finite s (r / 2 ^ (r.log2 - 52)) (e + (m.log2 - 52 : ℕ) + (r.log2 - 52 : ℕ)) h := by
  have hshift : ∀ {n : ℕ} {f : ℤ}, 2 ^ 52 ≤ n → -1074 ≤ f →
      shiftToTargetExponent .binary64 n f .exact
        = (ExtendedMantissa.mk n false false >>> (n.log2 - 52), f + (n.log2 - 52 : ℕ)) := by
    intro n f hn hf
    rw [shiftToTargetExponent, targetExponent_eq hn hf, shiftToExponent, add_sub_cancel_left,
      Int.toNat_natCast]
    rfl
  have hpos : 0 < r / 2 ^ (r.log2 - 52) := by
    refine Nat.div_pos ?_ (Nat.two_pow_pos _)
    exact (Nat.pow_le_pow_right (by decide) (Nat.sub_le _ _)).trans (Nat.log2_self_le (by omega))
  have he' : -1074 ≤ e + (m.log2 - 52 : ℕ) := by omega
  refine ⟨hpos, ?_⟩
  simp only [roundWithAccuracy, hshift hm he, hr, hshift hlow he', mantissa_shiftRight, hpos.ne',
    dite_false]

/-- Bits that are zero are dropped without rounding. -/
theorem roundedMantissa_shiftRight_mul (m j : ℕ) :
    (ExtendedMantissa.mk (m * 2 ^ j) false false >>> j).roundedMantissa = m := by
  have hmantissa : (ExtendedMantissa.mk (m * 2 ^ j) false false >>> j).mantissa = m := by
    rw [mantissa_shiftRight]
    exact Nat.mul_div_cancel m (Nat.two_pow_pos j)
  have hround : (ExtendedMantissa.mk (m * 2 ^ j) false false >>> j).roundBit = false := by
    cases j with
    | zero => rfl
    | succ j =>
      rw [roundBit_shiftRight_succ]
      simp only [pow_succ, ← Nat.mul_assoc, Nat.mul_right_comm m, Nat.mul_div_cancel _ (Nat.two_pow_pos j),
        Nat.mul_mod_left, bne_self_eq_false]
  have hle := roundedMantissa_le (ExtendedMantissa.mk (m * 2 ^ j) false false >>> j)
  have hge := le_roundedMantissa (ExtendedMantissa.mk (m * 2 ^ j) false false >>> j)
  rw [hmantissa, hround] at hle
  rw [hmantissa] at hge
  exact Nat.le_antisymm hle hge

theorem log2_eq_of_lt {m : ℕ} (hlow : 2 ^ 52 ≤ m) (hm : m < 2 ^ 53) : m.log2 = 52 :=
  (Nat.log2_eq_iff (by omega)).mpr ⟨hlow, hm⟩

/-- A number of 53 bits is rounded to itself, also when zeros follow it. -/
theorem roundWithAccuracy_mul (s : Sign) {m j : ℕ} {e : ℤ} (hlow : 2 ^ 52 ≤ m) (hm : m < 2 ^ 53)
    (he : -1074 ≤ e - j) :
    ∃ h, roundWithAccuracy .binary64 s (m * 2 ^ j) (e - j) .exact = .finite s m e h := by
  have hlog : (m * 2 ^ j).log2 - 52 = j := by
    have hpow : (m * 2 ^ j).log2 = 52 + j := by
      refine (Nat.log2_eq_iff (Nat.mul_pos (by omega) (Nat.two_pow_pos j)).ne').mpr ⟨?_, ?_⟩
      · rw [pow_add]
        exact Nat.mul_le_mul_right _ hlow
      · rw [Nat.add_right_comm, pow_add]
        exact Nat.mul_lt_mul_of_pos_right hm (Nat.two_pow_pos j)
    omega
  have hround := roundWithAccuracy_eq s (hlow.trans (Nat.le_mul_of_pos_right m (Nat.two_pow_pos j))) he
    (hlog.symm ▸ roundedMantissa_shiftRight_mul m j) hlow
  simpa only [hlog, log2_eq_of_lt hlow hm, Nat.sub_self, pow_zero, Nat.div_one, Nat.cast_zero, add_zero,
    sub_add_cancel] using hround

/-- Rounding leaves a number of 53 bits, and an exponent that counts the bits that are dropped. -/
theorem exists_roundWithAccuracy (s : Sign) {m : ℕ} {e : ℤ} (hm : 2 ^ 52 ≤ m) (he : -1074 ≤ e) :
    ∃ r f h, roundWithAccuracy .binary64 s m e .exact = .finite s r f h
      ∧ 2 ^ 52 ≤ r ∧ r < 2 ^ 53 ∧ e + (m.log2 - 52 : ℕ) ≤ f := by
  have hlog : 52 ≤ m.log2 := (Nat.le_log2 (by omega)).mpr hm
  obtain ⟨em, hem⟩ : ∃ em, em = ExtendedMantissa.mk m false false >>> (m.log2 - 52) := ⟨_, rfl⟩
  have hshift : em.mantissa = m / 2 ^ (m.log2 - 52) := by
    rw [hem, mantissa_shiftRight]
  have hlow : 2 ^ 52 ≤ em.mantissa := by
    rw [hshift, Nat.le_div_iff_mul_le (Nat.two_pow_pos _), ← pow_add, Nat.add_sub_cancel' hlog]
    exact Nat.log2_self_le (by omega)
  have hhigh : em.mantissa < 2 ^ 53 := by
    rw [hshift, Nat.div_lt_iff_lt_mul (Nat.two_pow_pos _), ← pow_add]
    exact (Nat.lt_log2_self).trans_eq (congrArg _ (by omega))
  have hge := le_roundedMantissa em
  have hle := roundedMantissa_le em
  have hbit := Bool.toNat_le em.roundBit
  have hlow' : 2 ^ 52 ≤ em.roundedMantissa := hlow.trans hge
  obtain ⟨h, hround⟩ := roundWithAccuracy_eq s hm he (hem ▸ rfl) hlow'
  refine ⟨_, _, h, hround, ?_⟩
  -- only rounding up to `2 ^ 53` takes one bit more
  rcases Nat.lt_or_ge em.roundedMantissa (2 ^ 53) with hr | hr
  · rw [log2_eq_of_lt hlow' hr, Nat.sub_self, pow_zero, Nat.div_one]
    exact ⟨hlow', hr, by omega⟩
  · have hcarry : em.roundedMantissa = 2 ^ 53 := by omega
    rw [hcarry, Nat.log2_two_pow]
    exact ⟨by decide, by decide, by omega⟩

/-! ### Values -/

/-- A number beyond the range is packed as an infinity. -/
theorem unpack_pack_of_lt (s : Sign) {m : ℕ} {e : ℤ} {h : 0 < m} (he : 971 < e) :
    unpack .binary64 (pack .binary64 (.finite s m e h)) = .infinity s := by
  have hbias : 2 ^ 11 ≤ (e + Format.binary64.exponentBias + (52 : ℕ)).toNat + 1 := by
    simp only [Format.exponentBias]
    omega
  rw [UnpackedFloat.pack]
  simp only [if_pos hbias]
  cases s <;> rfl

theorem value_ofFloat (f : Float) : (ofFloat f).value = f.toModel.unpack := by
  rw [ofFloat]
  split
  · rename_i h
    have hnan : f.toModel.unpack.isNaN := h
    cases hf : f.toModel.unpack with
    | notANumber => rfl
    | _ => rw [hf] at hnan; cases hnan
  · rfl

theorem units_of_value {x : Double} {s : Sign} {m : ℕ} {e : ℤ} {h : 0 < m}
    (hx : x.value = .finite s m e h) :
    x.isFinite = true ∧ ∃ k : ℕ, e = k - 1074 ∧ x.units = m * 2 ^ k := by
  obtain ⟨k, -, he, hm, hnormal, hbits⟩ := unpack_eq_finite hx
  refine ⟨by rw [isFinite_eq_value, hx]; rfl, k, he, ?_⟩
  have hmagnitude : x.magnitude.toNat = 2 ^ 52 * k + m := by
    rw [toNat_magnitude]
    exact hbits
  rw [units, hmagnitude, unitsOf]
  split
  · obtain rfl : k = 0 := by omega
    rw [Nat.mul_zero, Nat.zero_add, pow_zero, Nat.mul_one]
  · have hlow : 2 ^ 52 ≤ m := by omega
    have hmod : 2 ^ 52 + (2 ^ 52 * k + m) % 2 ^ 52 = m := by omega
    have hdiv : (2 ^ 52 * k + m) / 2 ^ 52 - 1 = k := by omega
    rw [hmod, hdiv]

/-- The sign bit is the sign of the number that a pattern stands for. -/
theorem isNegative_iff_of_value {x : Double} {s : Sign} {m : ℕ} {e : ℤ} {h : 0 < m}
    (hx : x.value = .finite s m e h) : x.isNegative ↔ s = .negative := by
  have hsign : Sign.ofBitVec (@unpackSign .binary64 x.bits.toBitVec) = s := by
    rw [value, UnpackedFloat.unpack] at hx
    split at hx
    · split at hx <;> cases hx
    · split at hx
      · split at hx
        · cases hx
        · exact (UnpackedFloat.finite.inj hx).1
      · exact (UnpackedFloat.finite.inj hx).1
  have hbit : @unpackSign .binary64 x.bits.toBitVec = 0#1 ↔ x.bits.toNat / 2 ^ 63 % 2 = 0 := by
    rw [← BitVec.toNat_inj]
    simp [unpackSign, BitVec.extractLsb, Nat.shiftRight_eq_div_pow]
  have hlt := x.bits.toNat_lt
  rw [isNegative_iff, ← hsign, Sign.ofBitVec]
  split
  · rename_i hzero
    exact iff_of_false (by have := hbit.mp hzero; omega) (fun h => by cases h)
  · rename_i hne
    exact iff_of_true (by have := mt hbit.mpr hne; omega) rfl

/-! ### Integers as doubles -/

theorem ofNat_eq {n : ℕ} (h : 0 < n) : ofNat n = ofFloat (Float.ofScientific n false 0) := by
  rw [ofNat, ofDecimal, if_neg h.ne']
  rfl

/-- A natural number below `2 ^ 53` is filled up to 53 bits by zeros. -/
theorem exists_filled {n : ℕ} (hpos : 0 < n) (h : n < 2 ^ 53) :
    ∃ i, i + n.log2 = 52 ∧ 2 ^ 52 ≤ n * 2 ^ i ∧ n * 2 ^ i < 2 ^ 53 := by
  have hlog : n.log2 ≤ 52 := Nat.le_of_lt_succ ((Nat.log2_lt hpos.ne').mpr h)
  obtain ⟨i, hi⟩ : ∃ i, i + n.log2 = 52 := ⟨52 - n.log2, by omega⟩
  refine ⟨i, hi, ?_, ?_⟩
  · rw [← hi, pow_add, Nat.mul_comm]
    exact Nat.mul_le_mul_right _ (Nat.log2_self_le hpos.ne')
  · rw [show 53 = n.log2 + 1 + i by omega, pow_add]
    exact Nat.mul_lt_mul_of_pos_right Nat.lt_log2_self (Nat.two_pow_pos i)

/-- A word below `2 ^ 53` is turned into a double without rounding. -/
theorem unpack_toFloat_toUInt64 {n i : ℕ} (hpos : 0 < n) (h : n < 2 ^ 53) (hi : i + n.log2 = 52)
    (hlow : 2 ^ 52 ≤ n * 2 ^ i) (hhigh : n * 2 ^ i < 2 ^ 53) (hm : 0 < n * 2 ^ i) :
    n.toUInt64.toFloat.toModel.unpack = .finite .positive (n * 2 ^ i) (-i) hm := by
  have hn : n.toUInt64.toNat = n := by
    simp
    omega
  have hround : UnpackedFloat.ofUInt64 .binary64 n.toUInt64
      = UnpackedFloat.round .binary64 .positive n 0 := by
    show normalize .binary64 n.toUInt64.toNat 0 .positive = _
    rw [hn, UnpackedFloat.normalize]
    have hcompare : compare (n : ℤ) 0 = .gt := Int.compare_eq_gt.mpr (by omega)
    rw [hcompare]
    rfl
  -- the shift fills the significand, so nothing is left to round
  have htarget : (0 - Format.targetExponent .binary64 (totalExponent n 0)).toNat = i := by
    simp only [Format.targetExponent, totalExponent, Format.mantissaBits, Format.minExponent]
    omega
  have hexponent : (-i : ℤ) = (1074 - i : ℕ) - 1074 := by omega
  obtain ⟨_, hexact⟩ := roundWithAccuracy_mul .positive (j := 0) (e := 0 - i) hlow hhigh (by omega)
  rw [pow_zero, Nat.mul_one, Nat.cast_zero, sub_zero] at hexact
  show UnpackedFloat.unpack .binary64 (UnpackedFloat.pack .binary64
    (UnpackedFloat.ofUInt64 .binary64 n.toUInt64)) = _
  rw [hround, UnpackedFloat.round]
  simp only [decreaseExponent, htarget, Nat.shiftLeft_eq, hexact]
  rw [zero_sub, hexponent]
  exact unpack_pack_finite .positive hhigh (by omega) (.inr hlow)

/-- A natural number below `2 ^ 53` is the double of its 53 bits. -/
theorem value_ofNat {n : ℕ} (hpos : 0 < n) (h : n < 2 ^ 53) :
    ∃ i : ℕ, i ≤ 52 ∧ ∃ hm, (ofNat n).value = .finite .positive (n * 2 ^ i) (-i) hm := by
  obtain ⟨i, hi, hlow, hhigh⟩ := exists_filled hpos h
  have hexponent : (-i : ℤ) = (1074 - i : ℕ) - 1074 := by omega
  have hm : 0 < n * 2 ^ i := by positivity
  refine ⟨i, by omega, hm, ?_⟩
  -- the word is multiplied by one, which rounds nothing either
  have hone : (Float.ofBits 0x3ff0000000000000).toModel.unpack
      = .finite .positive (2 ^ 52) (-52) (by decide) := by rfl
  obtain ⟨_, hexact⟩ := roundWithAccuracy_mul .positive (j := 52) (e := -i) hlow hhigh (by omega)
  rw [ofNat_eq hpos, value_ofFloat, Float.ofScientific, dif_pos ⟨h, by decide⟩]
  show UnpackedFloat.unpack .binary64 (UnpackedFloat.pack .binary64 (UnpackedFloat.mul .binary64
    n.toUInt64.toFloat.toModel.unpack (Float.ofBits 0x3ff0000000000000).toModel.unpack)) = _
  rw [unpack_toFloat_toUInt64 hpos h hi hlow hhigh hm, hone]
  show UnpackedFloat.unpack .binary64 (UnpackedFloat.pack .binary64
    (roundWithAccuracy .binary64 .positive (n * 2 ^ i * 2 ^ 52) (-i - (52 : ℕ)) .exact)) = _
  rw [hexact, hexponent]
  exact unpack_pack_finite .positive hhigh (by omega) (.inr hlow)

/-- A greater natural number is rounded to a double with a positive exponent, or beyond the range. -/
theorem value_ofNat_of_le {n : ℕ} (h : 2 ^ 53 ≤ n) :
    (ofNat n).value = .infinity .positive
      ∨ ∃ m e hm, (ofNat n).value = .finite .positive m e hm ∧ 2 ^ 52 ≤ m ∧ 1 ≤ e := by
  have hpos : 0 < n := by omega
  have hmodel : (Float.ofScientific n false 0).toModel.unpack
      = UnpackedFloat.unpack .binary64 (UnpackedFloat.pack .binary64
        (roundWithAccuracy .binary64 .positive (n * 2 ^ 53) (-53) .exact)) := by
    have hbranch : ¬ (n < 2 ^ 53 ∧ 0 ≤ 22) := by omega
    have hsmall : ¬ (0 : ℤ) < -((2 : ℤ) ^ 11 + n.log2) := by omega
    rw [Float.ofScientific, dif_neg hbranch]
    show UnpackedFloat.unpack .binary64 (UnpackedFloat.pack .binary64
      (UnpackedFloat.ofScientific .binary64 n 0)) = _
    rw [UnpackedFloat.ofScientific, dif_neg hpos.ne', if_neg (by decide), if_neg hsmall, if_pos le_rfl]
    simp only [UnpackedFloat.mul, Nat.shiftLeft_eq, Int.toNat_zero, pow_zero, Nat.mul_one, add_zero]
    rfl
  -- the product with a power of two has more digits than a significand, so it is rounded
  have hwide : (n * 2 ^ 53).log2 = n.log2 + 53 := by
    refine (Nat.log2_eq_iff (by positivity)).mpr ⟨?_, ?_⟩
    · rw [pow_add]
      exact Nat.mul_le_mul_right _ (Nat.log2_self_le hpos.ne')
    · rw [Nat.add_right_comm, pow_add]
      exact Nat.mul_lt_mul_of_pos_right Nat.lt_log2_self (Nat.two_pow_pos 53)
  have hlog : 53 ≤ n.log2 := (Nat.le_log2 hpos.ne').mpr h
  obtain ⟨r, e, hr, hround, hlow, hhigh, he⟩ :=
    exists_roundWithAccuracy .positive (m := n * 2 ^ 53) (e := -53) (by omega) (by decide)
  have hexponent : 1 ≤ e := by omega
  rw [ofNat_eq hpos, value_ofFloat, hmodel, hround]
  rcases Int.lt_or_le 971 e with hover | hrange
  · exact .inl (unpack_pack_of_lt .positive hover)
  · obtain ⟨k, rfl⟩ : ∃ k : ℕ, e = k - 1074 := ⟨(e + 1074).toNat, by omega⟩
    exact .inr ⟨_, _, hr, unpack_pack_finite .positive hhigh (by omega) (.inr hlow), hlow, hexponent⟩

theorem magnitude_negate (x : Double) : x.negate.magnitude = x.magnitude := by
  have hsign : signBit.toNat &&& 0x7fffffffffffffff = 0 := by rfl
  rw [← UInt64.toNat_inj, magnitude, magnitude, negate, UInt64.toNat_and, UInt64.toNat_and,
    UInt64.toNat_xor, Nat.and_xor_distrib_right]
  exact (congrArg _ hsign).trans (Nat.xor_zero _)

theorem isNegative_negate {x : Double} (h : x.isNegative = false) : x.negate.isNegative = true := by
  have hlow : x.bits.toNat < 2 ^ 63 := by
    by_contra hge
    rw [(isNegative_iff x).mpr (not_lt.mp hge)] at h
    cases h
  have hsign : signBit.toNat = 2 ^ 63 := by rfl
  rw [isNegative_iff]
  refine Nat.ge_two_pow_of_testBit ?_
  rw [negate, UInt64.toNat_xor, hsign, Nat.testBit_xor, Nat.testBit_lt_two_pow hlow,
    Nat.testBit_two_pow_self]
  rfl

/-- Natural numbers below `2 ^ 53` are doubles. -/
theorem units_ofNat {n : ℕ} (h : n < 2 ^ 53) :
    (ofNat n).isFinite = true ∧ (ofNat n).units = n * unitsOfOne ∧ (ofNat n).isNegative = false := by
  rcases Nat.eq_zero_or_pos n with rfl | hpos
  · exact ⟨by decide, (Nat.zero_mul _).symm ▸ rfl, by decide⟩
  · obtain ⟨i, hi, hm, hvalue⟩ := value_ofNat hpos h
    obtain ⟨hfinite, k, hk, hunits⟩ := units_of_value hvalue
    have hsign : (ofNat n).isNegative = false :=
      Bool.eq_false_iff.mpr (mt (isNegative_iff_of_value hvalue).mp nofun)
    refine ⟨hfinite, ?_, hsign⟩
    have hpow : unitsOfOne = 2 ^ i * 2 ^ k := by
      rw [unitsOfOne, ← pow_add]
      congr 1
      omega
    rw [hunits, hpow, Nat.mul_assoc]

/-- **Integers below `2 ^ 53` are doubles.** -/
theorem toInt?_ofInt {n : ℤ} (h : n.natAbs < 2 ^ 53) : (ofInt n).toInt? = some n := by
  obtain ⟨hfinite, hunits, hsign⟩ := units_ofNat h
  rw [ofInt]
  split
  · rename_i hneg
    refine toInt?_eq_some_iff.mpr ⟨(isFinite_negate _).trans hfinite, n.natAbs, ?_, ?_⟩
    · rw [units, magnitude_negate]
      exact hunits
    · rw [isNegative_negate hsign, if_pos rfl]
      omega
  · rename_i hneg
    refine toInt?_eq_some_iff.mpr ⟨hfinite, n.natAbs, hunits, ?_⟩
    rw [hsign, if_neg Bool.false_ne_true]
    omega

/-- Natural numbers from `2 ^ 53` on are rounded to no smaller doubles. -/
theorem le_units_ofNat {n : ℕ} (h : 2 ^ 53 ≤ n) : 2 ^ 53 * unitsOfOne ≤ (ofNat n).units := by
  rcases value_ofNat_of_le h with hinfinite | ⟨m, e, hm, hvalue, hlow, he⟩
  · have hbits : (ofNat n).isFinite = false := by
      rw [isFinite_eq_value, hinfinite]
      rfl
    have hmagnitude : 2047 * 2 ^ 52 ≤ (ofNat n).magnitude.toNat := by
      rw [isFinite, decide_eq_false_iff_not, UInt64.lt_iff_toNat_lt, infinityBits] at hbits
      simp only [UInt64.reduceToNat] at hbits
      omega
    refine le_trans ?_ (unitsOf_strictMono.monotone hmagnitude)
    have hinfinity : unitsOf (2047 * 2 ^ 52) = 2 ^ 52 * 2 ^ 2046 := by
      rw [unitsOf, if_neg (by decide), Nat.mul_div_cancel _ (by decide), Nat.mul_mod_left, Nat.add_zero]
    have hle : 1075 ≤ 2046 := by decide
    rw [hinfinity, unitsOfOne, ← pow_add, show 53 + 1074 = 52 + 1075 from rfl, pow_add]
    exact Nat.mul_le_mul_left _ (pow_le_pow_right₀ one_le_two hle)
  · obtain ⟨-, k, hk, hunits⟩ := units_of_value hvalue
    have hle : 1075 ≤ k := by omega
    calc 2 ^ 53 * unitsOfOne = 2 ^ 52 * 2 ^ 1075 := by rw [unitsOfOne, ← pow_add, ← pow_add]
      _ ≤ m * 2 ^ k := Nat.mul_le_mul hlow (pow_le_pow_right₀ one_le_two hle)
      _ = (ofNat n).units := hunits.symm

/-- **Integers from `2 ^ 53` on are rounded to no smaller doubles.** -/
theorem le_units_ofInt {n : ℤ} (h : 2 ^ 53 ≤ n.natAbs) : 2 ^ 53 * unitsOfOne ≤ (ofInt n).units := by
  rw [ofInt]
  split
  · rw [units, magnitude_negate]
    exact le_units_ofNat h
  · exact le_units_ofNat h

end Double

end RelationalLP
