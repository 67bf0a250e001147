import Mathlib
import RelationalLP.Proofs.Number.Doubles

/-! # Values of doubles

The magnitude of a finite double is a number of units, the least positive doubles, and grows with the
pattern. Equality of values is an equivalence on what is a number, and doubles that are one integer have
one value. -/

namespace RelationalLP

namespace Double

/-! ### Units -/

/-- The units of a magnitude with the given pattern: the fraction, behind a leading bit unless the exponent
is zero. -/
def unitsOf (pattern : ℕ) : ℕ :=
  if pattern / 2 ^ 52 = 0 then pattern
  else (2 ^ 52 + pattern % 2 ^ 52) * 2 ^ (pattern / 2 ^ 52 - 1)

/-- The magnitude of a double in units of the least positive one. -/
def units (x : Double) : ℕ := unitsOf x.magnitude.toNat

/-- The units of one. -/
def unitsOfOne : ℕ := 2 ^ 1074

theorem unitsOfOne_pos : 0 < unitsOfOne := by
  unfold unitsOfOne
  positivity

/-- The gap above a pattern is a power of two that depends on its exponent. -/
theorem unitsOf_succ (n : ℕ) : unitsOf (n + 1) = unitsOf n + 2 ^ (n / 2 ^ 52 - 1) := by
  rcases Nat.lt_or_ge (n % 2 ^ 52 + 1) (2 ^ 52) with hlow | hcarry
  · -- the fraction grows and the exponent stays
    have hdiv : (n + 1) / 2 ^ 52 = n / 2 ^ 52 := by omega
    have hmod : (n + 1) % 2 ^ 52 = n % 2 ^ 52 + 1 := by omega
    rw [unitsOf, unitsOf, hdiv, hmod]
    split
    · rename_i hzero
      rw [hzero]
      rfl
    · ring
  · -- the fraction starts again and the exponent grows
    have hdiv : (n + 1) / 2 ^ 52 = n / 2 ^ 52 + 1 := by omega
    have hmod : (n + 1) % 2 ^ 52 = 0 := by omega
    have hlast : n % 2 ^ 52 = 2 ^ 52 - 1 := by omega
    rw [unitsOf, unitsOf, hdiv, hmod, if_neg (Nat.succ_ne_zero _), Nat.add_sub_cancel]
    split
    · rename_i hzero
      rw [hzero]
      omega
    · rename_i hne
      obtain ⟨k, hk⟩ := Nat.exists_eq_succ_of_ne_zero hne
      rw [hk, hlast, Nat.succ_sub_one, Nat.succ_eq_add_one]
      ring

/-- **A greater pattern has more units.** -/
theorem unitsOf_strictMono : StrictMono unitsOf := by
  refine strictMono_nat_of_lt_succ fun n => ?_
  rw [unitsOf_succ]
  exact Nat.lt_add_of_pos_right (Nat.two_pow_pos _)

/-- The fraction bits are the low bits of the pattern. -/
theorem toNat_fraction (x : Double) :
    (x.bits &&& 0xfffffffffffff).toNat = x.magnitude.toNat % 2 ^ 52 := by
  rw [toNat_magnitude, UInt64.toNat_and, Nat.mod_mod_of_dvd _ (by decide)]
  exact Nat.and_two_pow_sub_one_eq_mod _ 52

/-- The significand has a leading bit before the fraction unless the exponent bits are zero. -/
theorem significand_eq (x : Double) : x.significand
    = if x.magnitude.toNat / 2 ^ 52 = 0 then x.magnitude.toNat else 2 ^ 52 + x.magnitude.toNat % 2 ^ 52 := by
  have hsmall : x.magnitude < 0x10000000000000 ↔ x.magnitude.toNat / 2 ^ 52 = 0 := by
    rw [UInt64.lt_iff_toNat_lt]
    simp only [UInt64.reduceToNat]
    omega
  rw [significand]
  simp only [hsmall, toNat_fraction]
  split
  · omega
  · rfl

/-- The exponent is the one of the exponent bits, of which zero and one mean the same. -/
theorem exponent_eq (x : Double) :
    x.exponent = ((x.magnitude.toNat / 2 ^ 52 - 1 : ℕ) : ℤ) - 1074 := by
  have hshift : (x.magnitude >>> 52).toNat = x.magnitude.toNat / 2 ^ 52 := by
    rw [UInt64.toNat_shiftRight, Nat.shiftRight_eq_div_pow]
    rfl
  simp only [exponent, hshift]
  split <;> omega

/-- The units of a number are read off its significand and its exponent. -/
theorem units_eq (x : Double) : x.units = x.significand * 2 ^ (x.exponent + 1074).toNat := by
  have hexponent : (x.exponent + 1074).toNat = x.magnitude.toNat / 2 ^ 52 - 1 := by
    rw [exponent_eq]
    omega
  rw [hexponent, significand_eq, units, unitsOf]
  split
  · rename_i hzero
    rw [hzero]
    exact (Nat.mul_one _).symm
  · rfl

/-- With an exponent that is not negative the units of the significand are whole ones. -/
theorem two_pow_units_of_nonneg {e : ℤ} (he : 0 ≤ e) :
    2 ^ (e + 1074).toNat = 2 ^ e.toNat * unitsOfOne := by
  rw [unitsOfOne, ← pow_add]
  congr 1
  omega

/-- With a negative exponent a one has several units of the significand. -/
theorem unitsOfOne_eq_of_neg {e : ℤ} (he : e < 0) (hlow : -1074 ≤ e) :
    unitsOfOne = 2 ^ (-e).toNat * 2 ^ (e + 1074).toNat := by
  rw [unitsOfOne, ← pow_add]
  congr 1
  omega

/-- The integer of a double is the one of its units, with its sign. -/
theorem toInt?_eq_some_iff {x : Double} {n : ℤ} :
    x.toInt? = some n ↔ x.isFinite = true
      ∧ ∃ k : ℕ, x.units = k * unitsOfOne ∧ n = if x.isNegative then -(k : ℤ) else k := by
  unfold toInt?
  cases hfinite : x.isFinite with
  | false => simp
  | true =>
    have hexponent : -1074 ≤ x.exponent := by
      rw [exponent_eq]
      omega
    rw [units_eq]
    simp only [Bool.not_true, Bool.false_eq_true, if_false, true_and, Nat.pow_eq]
    split
    · -- a whole number of ones
      rename_i hpos
      simp only [two_pow_units_of_nonneg hpos, ← Nat.mul_assoc, Nat.mul_left_inj unitsOfOne_pos.ne', Option.some.injEq]
      constructor
      · rintro rfl
        exact ⟨_, rfl, rfl⟩
      · rintro ⟨k, rfl, rfl⟩
        rfl
    · -- a fraction of ones, which may be whole all the same
      rename_i hneg
      have hpos : 0 < 2 ^ (-x.exponent).toNat := Nat.two_pow_pos _
      simp only [unitsOfOne_eq_of_neg (not_le.mp hneg) hexponent, ← Nat.mul_assoc, Nat.mul_left_inj (Nat.two_pow_pos _).ne']
      split
      · rename_i hmod
        rw [Option.some.injEq]
        constructor
        · rintro rfl
          exact ⟨_, (Nat.div_mul_cancel (Nat.dvd_of_mod_eq_zero hmod)).symm, rfl⟩
        · rintro ⟨k, hk, rfl⟩
          rw [hk, Nat.mul_div_cancel k hpos]
      · rename_i hmod
        refine iff_of_false nofun ?_
        rintro ⟨k, hk, -⟩
        rw [hk, Nat.mul_mod_left] at hmod
        exact hmod rfl

/-- A zero is the integer zero, with whatever sign. -/
theorem toInt?_of_magnitude_eq_zero {x : Double} (h : x.magnitude = 0) : x.toInt? = some 0 := by
  refine toInt?_eq_some_iff.mpr ⟨?_, 0, ?_, ?_⟩
  · rw [isFinite, h]
    rfl
  · rw [units, h, Nat.zero_mul]
    rfl
  · rw [Nat.cast_zero, neg_zero, ite_self]

/-! ### Equality of values -/

theorem toNat_bits (x : Double) :
    x.bits.toNat = (if x.isNegative then 2 ^ 63 else 0) + x.magnitude.toNat := by
  have hlt := x.bits.toNat_lt
  rw [toNat_magnitude]
  split
  · rename_i h
    have := (isNegative_iff x).mp h
    omega
  · rename_i h
    have := mt (isNegative_iff x).mpr h
    omega

/-- A pattern is its sign and its magnitude. -/
theorem eq_of_isNegative_of_magnitude {x y : Double} (hsign : x.isNegative = y.isNegative)
    (hmagnitude : x.magnitude = y.magnitude) : x = y := by
  have hbits : x.bits.toNat = y.bits.toNat := by
    rw [x.toNat_bits, y.toNat_bits, hsign, hmagnitude]
  obtain ⟨b⟩ := x
  obtain ⟨d⟩ := y
  exact congrArg mk (UInt64.toNat_inj.mp hbits)

theorem magnitude_eq_of_units_eq {x y : Double} (h : x.units = y.units) :
    x.magnitude = y.magnitude :=
  UInt64.toNat_inj.mp (unitsOf_strictMono.injective h)

/-- Equal values: one pattern that is a number, or two zeros. -/
theorem numEq_iff {x y : Double} : x.numEq y = true ↔ x.isNaN = false ∧ y.isNaN = false
    ∧ (x = y ∨ x.magnitude = 0 ∧ y.magnitude = 0) := by
  have hbits : x.bits = y.bits ↔ x = y := by
    cases x; cases y; simp
  rw [numEq]
  simp only [Bool.and_eq_true, Bool.or_eq_true, Bool.not_eq_true', beq_iff_eq, hbits, and_assoc]

theorem numEq_symm {x y : Double} (h : x.numEq y = true) : y.numEq x = true := by
  obtain ⟨hx, hy, heq⟩ := numEq_iff.mp h
  exact numEq_iff.mpr ⟨hy, hx, heq.imp Eq.symm And.symm⟩

theorem numEq_trans {x y z : Double} (h : x.numEq y = true) (h' : y.numEq z = true) :
    x.numEq z = true := by
  obtain ⟨hx, -, rfl | ⟨hzero, hyzero⟩⟩ := numEq_iff.mp h
  · exact h'
  · obtain ⟨-, hz, rfl | ⟨-, hzzero⟩⟩ := numEq_iff.mp h'
    · exact numEq_iff.mpr ⟨hx, hz, .inr ⟨hzero, hyzero⟩⟩
    · exact numEq_iff.mpr ⟨hx, hz, .inr ⟨hzero, hzzero⟩⟩

/-- Numbers compare as equal when they have one value. -/
theorem compareValue_eq_eq_iff {x y : Double} :
    Scalar.compareValue x y = some .eq ↔ x.numEq y = true := by
  show (if x < y then some .lt else if y < x then some .gt
    else if x.numEq y then some .eq else none) = some Ordering.eq ↔ _
  -- numbers of one value are the same word or both zeros, and neither is less than the other
  have hless : ∀ {a b : Double}, a < b → a.numEq b = false := by
    intro a b h
    have hab : a.less b = true := h
    by_contra heq
    obtain ⟨-, -, rfl | ⟨ha, hb⟩⟩ := numEq_iff.mp (Bool.eq_true_of_not_eq_false heq)
    · rw [less] at hab
      cases hs : a.isNegative <;> simp [hs] at hab
    · rw [less, ha, hb] at hab
      cases hs : a.isNegative <;> cases ht : b.isNegative <;> simp [hs, ht] at hab
  by_cases hlt : x < y
  · rw [if_pos hlt, hless hlt]
    simp
  · rw [if_neg hlt]
    by_cases hgt : y < x
    · have hne : x.numEq y = false := by
        by_contra hxy
        have hyx := numEq_symm (Bool.eq_true_of_not_eq_false hxy)
        rw [hless hgt] at hyx
        cases hyx
      rw [if_pos hgt, hne]
      simp
    · rw [if_neg hgt]
      cases x.numEq y <;> simp

/-- **Doubles that are one integer have one value.** -/
theorem numEq_iff_toInt? {x y : Double} {n : ℤ} (hx : x.toInt? = some n) :
    x.numEq y = true ↔ y.toInt? = some n := by
  obtain ⟨hfinite, k, hk, hn⟩ := toInt?_eq_some_iff.mp hx
  constructor
  · intro h
    obtain ⟨-, hy, rfl | ⟨hzero, hyzero⟩⟩ := numEq_iff.mp h
    · exact hx
    · rwa [toInt?_of_magnitude_eq_zero hyzero, ← toInt?_of_magnitude_eq_zero hzero]
  · intro hy
    obtain ⟨hyfinite, j, hj, hm⟩ := toInt?_eq_some_iff.mp hy
    obtain rfl : k = j := by
      rw [hm] at hn
      split at hn <;> split at hn <;> omega
    have hmagnitude := magnitude_eq_of_units_eq (hk.trans hj.symm)
    refine numEq_iff.mpr ⟨isNaN_of_isFinite hfinite, isNaN_of_isFinite hyfinite, ?_⟩
    rcases Nat.eq_zero_or_pos k with rfl | hpos
    · rw [Nat.zero_mul] at hk
      have hzero : x.magnitude = 0 :=
        UInt64.toNat_inj.mp (unitsOf_strictMono.injective hk)
      exact .inr ⟨hzero, hmagnitude ▸ hzero⟩
    · refine .inl (eq_of_isNegative_of_magnitude ?_ hmagnitude)
      rw [hm] at hn
      cases hs : x.isNegative <;> cases ht : y.isNegative <;> simp [hs, ht] at hn ⊢ <;> omega

end Double

end RelationalLP
