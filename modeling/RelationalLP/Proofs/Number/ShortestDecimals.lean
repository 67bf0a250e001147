import Mathlib
import RelationalLP.Number.Shortest

/-! # The search for the shortest decimal

The grids of one, two and more digits are searched for a decimal in the interval of the numbers that round to
a binary number. What is found on a grid lies in the interval, and so does the number cut off after eighteen
digits. -/

namespace RelationalLP

namespace Decimal

/-! ### Digits -/

/-- The value of a decimal. -/
def value (d : Decimal) : ℚ := d.digits * 10 ^ (d.point - digitCount d.digits)

theorem digitCount_pos (n : ℕ) : 0 < digitCount n := Nat.length_toDigits_pos

theorem digitCount_le_iff {n k : ℕ} (hk : 0 < k) : digitCount n ≤ k ↔ n < 10 ^ k :=
  Nat.length_toDigits_le_iff (by decide) hk

theorem lt_pow_digitCount (n : ℕ) : n < 10 ^ digitCount n :=
  (digitCount_le_iff (digitCount_pos n)).mp le_rfl

theorem pow_digitCount_le {n : ℕ} (hn : 0 < n) : 10 ^ (digitCount n - 1) ≤ n := by
  rcases Nat.eq_zero_or_pos (digitCount n - 1) with hzero | hpos
  · rw [hzero]
    exact hn
  · by_contra hlt
    have hle := (digitCount_le_iff hpos).mpr (not_le.mp hlt)
    omega

theorem digitCount_mul_ten {n : ℕ} (hn : 0 < n) : digitCount (n * 10) = digitCount n + 1 := by
  have happend := Nat.toDigits_append_toDigits (b := 10) (d := 0) (by decide) hn (by decide)
  rw [digitCount, Nat.mul_comm, ← Nat.add_zero (10 * n), ← happend, List.length_append]
  rfl

/-- Dropping zeros divides by a power of ten. -/
theorem exists_dropZeros (fuel : ℕ) {n : ℕ} (hn : 0 < n) : ∃ j, n = dropZeros fuel n * 10 ^ j
    ∧ digitCount n = digitCount (dropZeros fuel n) + j := by
  induction fuel generalizing n with
  | zero => exact ⟨0, (Nat.mul_one n).symm, rfl⟩
  | succ fuel ih =>
    rw [dropZeros]
    split
    · rename_i hzero
      have hten : n = n / 10 * 10 := (Nat.div_mul_cancel (Nat.dvd_of_mod_eq_zero hzero)).symm
      have hpos : 0 < n / 10 := by omega
      obtain ⟨j, hj, hcount⟩ := ih hpos
      refine ⟨j + 1, ?_, ?_⟩
      · rw [pow_succ, ← Nat.mul_assoc, ← hj]
        exact hten
      · rw [hten, digitCount_mul_ten hpos, hcount, Nat.mul_div_cancel _ (by decide)]
        rfl
    · exact ⟨0, (Nat.mul_one n).symm, rfl⟩

/-- A multiple of a power of ten as a decimal. -/
theorem value_ofGrid (d : ℕ) (k : ℤ) : (ofGrid d k).value = d * 10 ^ k := by
  rcases Nat.eq_zero_or_pos d with rfl | hd
  · have hzero : dropZeros (digitCount 0) 0 = 0 := rfl
    rw [value, ofGrid, hzero, Nat.cast_zero, zero_mul, zero_mul]
  · obtain ⟨j, hj, hcount⟩ := exists_dropZeros (digitCount d) hd
    have hpoint : (digitCount d + k : ℤ) - digitCount (dropZeros (digitCount d) d) = j + k := by
      omega
    have hcast : (d : ℚ) = dropZeros (digitCount d) d * 10 ^ j := by exact_mod_cast hj
    rw [value, ofGrid, hpoint, zpow_add₀ (by norm_num), zpow_natCast, ← mul_assoc, ← hcast]

/-- **A positive fraction is no smaller than its leading power of ten.** -/
theorem zpow_pointOf_le {num den : ℕ} (hnum : 0 < num) (hden : 0 < den) :
    (10 : ℚ) ^ (pointOf num den - 1) ≤ num / den := by
  have hden' : (0 : ℚ) < den := Nat.cast_pos.mpr hden
  rw [pointOf]
  split
  · rename_i hle
    have hpow := pow_digitCount_le (Nat.div_pos hle hden)
    have hexponent : (digitCount (num / den) : ℤ) - 1 = (digitCount (num / den) - 1 : ℕ) := by
      have := digitCount_pos (num / den)
      omega
    rw [hexponent, zpow_natCast, le_div_iff₀ hden']
    exact_mod_cast (Nat.le_div_iff_mul_le hden).mp hpow
  · rename_i hlt
    have hcount := digitCount_pos (den / num)
    simp only [Nat.pow_eq]
    -- below one, the power is exact only when the quotient of the inverse is
    split
    · rename_i hle
      have hexponent : (2 - (digitCount (den / num) : ℤ)) - 1 = -(digitCount (den / num) - 1 : ℕ) := by
        omega
      rw [hexponent, zpow_neg, zpow_natCast, le_div_iff₀ hden', inv_mul_le_iff₀ (by positivity),
        mul_comm]
      exact_mod_cast hle
    · have hexponent : (1 - (digitCount (den / num) : ℤ)) - 1 = -(digitCount (den / num) : ℕ) := by
        omega
      have hle : den ≤ num * 10 ^ digitCount (den / num) :=
        ((Nat.div_lt_iff_lt_mul hnum).mp (lt_pow_digitCount (den / num))).le.trans_eq (Nat.mul_comm _ _)
      rw [hexponent, zpow_neg, zpow_natCast, le_div_iff₀ hden', inv_mul_le_iff₀ (by positivity),
        mul_comm]
      exact_mod_cast hle

/-! ### The search -/

namespace Target

/-- **A number lies in the interval** of a target. -/
structure Contains (t : Target) (x : ℚ) : Prop where
  /-- It is not below the lower end. -/
  low_le : t.low / t.den ≤ x
  /-- It is not above the upper end. -/
  le_high : x ≤ t.high / t.den
  /-- The ends do not belong to an open interval. -/
  strict : t.closed = false → t.low / t.den < x ∧ x < t.high / t.den

variable {t : Target}

theorem contains_of_lt {x : ℚ} (hlow : t.low / t.den < x) (hhigh : x < t.high / t.den) :
    t.Contains x := ⟨hlow.le, hhigh.le, fun _ => ⟨hlow, hhigh⟩⟩

theorem contains_of_holds (hden : 0 < t.den) {n : ℕ} (h : t.holds n = true) :
    t.Contains (n / t.den) := by
  have hden' : (0 : ℚ) < t.den := Nat.cast_pos.mpr hden
  rw [holds] at h
  split at h
  · rename_i hclosed
    rw [Bool.and_eq_true, decide_eq_true_eq, decide_eq_true_eq] at h
    refine ⟨?_, ?_, fun hopen => absurd (hclosed.symm.trans hopen) nofun⟩
    · exact div_le_div_of_nonneg_right (Nat.cast_le.mpr h.1) hden'.le
    · exact div_le_div_of_nonneg_right (Nat.cast_le.mpr h.2) hden'.le
  · rw [Bool.and_eq_true, decide_eq_true_eq, decide_eq_true_eq] at h
    exact contains_of_lt (div_lt_div_of_pos_right (Nat.cast_lt.mpr h.1) hden')
      (div_lt_div_of_pos_right (Nat.cast_lt.mpr h.2) hden')

/-- Reading a target in other units divides its numbers by the unit. -/
theorem scale_eq (t : Target) (hden : 0 < t.den) (k : ℤ) : 0 < (t.scale k).den
    ∧ (t.scale k).closed = t.closed
    ∧ ((t.scale k).low / (t.scale k).den : ℚ) = t.low / t.den / 10 ^ k
    ∧ ((t.scale k).num / (t.scale k).den : ℚ) = t.num / t.den / 10 ^ k
    ∧ ((t.scale k).high / (t.scale k).den : ℚ) = t.high / t.den / 10 ^ k := by
  rw [scale]
  simp only [Nat.pow_eq]
  split
  · rename_i hk
    have hpow : (10 : ℚ) ^ k = (10 ^ k.toNat : ℕ) := by
      rw [Nat.cast_pow, ← zpow_natCast, Int.toNat_of_nonneg hk]
      rfl
    refine ⟨Nat.mul_pos hden (by positivity), rfl, ?_, ?_, ?_⟩ <;>
      rw [hpow, Nat.cast_mul, div_div]
  · rename_i hk
    have hpow : (10 : ℚ) ^ k = ((10 ^ (-k).toNat : ℕ) : ℚ)⁻¹ := by
      rw [Nat.cast_pow, ← zpow_natCast, Int.toNat_of_nonneg (by omega), zpow_neg, inv_inv]
      rfl
    refine ⟨hden, rfl, ?_, ?_, ?_⟩ <;>
      rw [hpow, Nat.cast_mul, div_inv_eq_mul, mul_div_right_comm]

/-- What is in the interval in other units is in it in the units at first. -/
theorem contains_of_scale (hden : 0 < t.den) {k : ℤ} {x : ℚ} (h : (t.scale k).Contains x) :
    t.Contains (x * 10 ^ k) := by
  obtain ⟨-, hclosed, hlow, -, hhigh⟩ := t.scale_eq hden k
  have hpow : (0 : ℚ) < 10 ^ k := by positivity
  have hle := h.low_le
  have hle' := h.le_high
  have hstrict := h.strict
  rw [hlow, div_le_iff₀ hpow] at hle
  rw [hhigh, le_div_iff₀ hpow] at hle'
  rw [hclosed, hlow, hhigh, div_lt_iff₀ hpow, lt_div_iff₀ hpow] at hstrict
  exact ⟨hle, hle', hstrict⟩

/-- A multiple that is found on a grid is in the interval. -/
theorem contains_of_onGrid? (hden : 0 < t.den) {d : ℕ} (h : t.onGrid? = some d) : t.Contains d := by
  have hmul : ∀ n, t.holds (n * t.den) = true → t.Contains n := fun n hn => by
    have hcontains := contains_of_holds hden hn
    rwa [Nat.cast_mul, mul_div_cancel_right₀ _ (Nat.cast_pos.mpr hden).ne'] at hcontains
  rw [onGrid?] at h
  split at h
  · rename_i hfirst hsecond
    rw [Option.some.injEq] at h
    split at h
    · rw [← h]
      exact hmul _ hfirst
    · rw [← h]
      exact hmul _ hsecond
  · rename_i hfirst _
    rw [← Option.some.inj h]
    exact hmul _ hfirst
  · rename_i _ hsecond
    rw [← Option.some.inj h]
    exact hmul _ hsecond
  · exact nomatch h

/-- Cutting off a number after a power of ten loses less than this power. -/
theorem cut_bounds (hden : 0 < t.den) (k : ℤ) :
    (((t.scale k).num / (t.scale k).den : ℕ) : ℚ) * 10 ^ k ≤ t.num / t.den
      ∧ (t.num / t.den : ℚ) < ((t.scale k).num / (t.scale k).den : ℕ) * 10 ^ k + 10 ^ k := by
  obtain ⟨hscaled, -, -, hnum, -⟩ := t.scale_eq hden k
  have hpow : (0 : ℚ) < 10 ^ k := by positivity
  have hle : (((t.scale k).num / (t.scale k).den : ℕ) : ℚ) ≤ (t.scale k).num / (t.scale k).den :=
    Nat.cast_div_le
  have hlt : ((t.scale k).num / (t.scale k).den : ℚ) < ((t.scale k).num / (t.scale k).den : ℕ) + 1 := by
    rw [div_lt_iff₀ (Nat.cast_pos.mpr hscaled), mul_comm]
    exact_mod_cast Nat.lt_mul_div_succ (t.scale k).num hscaled
  rw [hnum, le_div_iff₀ hpow] at hle
  rw [hnum, div_lt_iff₀ hpow, add_mul, one_mul] at hlt
  exact ⟨hle, hlt⟩

/-- **The search ends in the interval**, when the interval reaches further below the number than a unit of
its eighteenth digit. -/
theorem contains_search (hden : 0 < t.den) (hlow : t.low * 10 ^ 17 + t.num < t.num * 10 ^ 17)
    (hhigh : t.num < t.high) {point : ℤ} (hpoint : (10 : ℚ) ^ (point - 1) ≤ t.num / t.den)
    {fuel n : ℕ} (hfuel : fuel + n = 18) : t.Contains (t.search point fuel n).value := by
  have hden' : (0 : ℚ) < t.den := Nat.cast_pos.mpr hden
  induction fuel generalizing n with
  | zero =>
    -- all grids were searched, and the eighteenth digit is cut off
    obtain rfl : n = 18 := by omega
    rw [search, value_ofGrid]
    obtain ⟨hle, hlt⟩ := cut_bounds hden (point - (18 : ℕ))
    have hunit : (10 : ℚ) ^ (point - (18 : ℕ)) * 10 ^ 17 = 10 ^ (point - 1) := by
      rw [← zpow_natCast, ← zpow_add₀ (by norm_num)]
      congr 1
      push_cast
      ring
    have hlow' : (t.low / t.den : ℚ) * 10 ^ 17 + t.num / t.den < t.num / t.den * 10 ^ 17 := by
      rw [div_mul_eq_mul_div, div_mul_eq_mul_div, ← add_div]
      exact div_lt_div_of_pos_right (by exact_mod_cast hlow) hden'
    have hhigh' : (t.num / t.den : ℚ) < t.high / t.den :=
      div_lt_div_of_pos_right (Nat.cast_lt.mpr hhigh) hden'
    refine contains_of_lt ?_ (hle.trans_lt hhigh')
    generalize (10 : ℚ) ^ (point - (18 : ℕ)) = unit at hlt hunit ⊢
    generalize (10 : ℚ) ^ (point - 1) = leading at hpoint hunit
    linarith
  | succ fuel ih =>
    rw [search]
    split
    · rename_i d hd
      rw [value_ofGrid]
      exact contains_of_scale hden (contains_of_onGrid? (t.scale_eq hden _).1 hd)
    · exact ih (by omega)

end Target

/-! ### The shortest decimal -/

/-- **The shortest decimal lies in the interval** of the numbers that round to `m · 2^q`. -/
theorem contains_shortest {m : ℕ} (hpos : 0 < m) (hm : m < 2 ^ 53) (q : ℤ) (narrow : Bool) :
    (target m q narrow).Contains (shortest m q narrow).value := by
  have hup : 0 < 2 ^ (q - 2).toNat := Nat.two_pow_pos _
  have hden : 0 < (target m q narrow).den := Nat.two_pow_pos _
  have hlow : (target m q narrow).low * 10 ^ 17 + (target m q narrow).num
      < (target m q narrow).num * 10 ^ 17 := by
    simp only [target, Nat.pow_eq]
    rw [Nat.mul_right_comm, Nat.mul_right_comm (4 * m), ← Nat.add_mul]
    refine Nat.mul_lt_mul_of_pos_right ?_ hup
    split <;> omega
  have hhigh : (target m q narrow).num < (target m q narrow).high :=
    Nat.mul_lt_mul_of_pos_right (by omega) hup
  have hnum : 0 < (target m q narrow).num := Nat.mul_pos (by omega) hup
  exact Target.contains_search hden hlow hhigh (zpow_pointOf_le hnum hden) rfl

end Decimal

end RelationalLP
