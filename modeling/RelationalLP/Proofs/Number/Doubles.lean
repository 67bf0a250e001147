import Mathlib
import RelationalLP.Number.Double

/-! # Doubles: order and range

The total order of patterns is lawful. A sum is finite only when both summands are; a product or a
quotient is finite when it stays half a unit below the end of the range; and rounding to a whole number
keeps a finite number finite. -/

namespace RelationalLP

open Float.Model Float.Model.UnpackedFloat

namespace Double

/-! ### Total order -/

/-- Negative patterns are those of the upper half. -/
theorem isNegative_iff (x : Double) : x.isNegative ↔ 2 ^ 63 ≤ x.bits.toNat := by
  rw [isNegative, decide_eq_true_eq, UInt64.le_iff_toNat_le]
  rfl

/-- The keys of negative patterns are the low half, turned around; those of the others the high half. -/
theorem toNat_orderKey (x : Double) : x.orderKey.toNat
    = if 2 ^ 63 ≤ x.bits.toNat then 2 ^ 64 - 1 - x.bits.toNat else 2 ^ 63 + x.bits.toNat := by
  rw [orderKey, if_congr (isNegative_iff x) rfl rfl]
  split
  · exact UInt64.toNat_not x.bits
  · rename_i hpos
    rw [UInt64.toNat_or, Nat.or_comm]
    exact (Nat.two_pow_add_eq_or_of_lt (not_le.mp hpos) 1).symm

/-- Different patterns have different keys. -/
theorem orderKey_injective : Function.Injective orderKey := by
  intro x y h
  have hkeys := congrArg UInt64.toNat h
  have hx := x.bits.toNat_lt
  have hy := y.bits.toNat_lt
  rw [toNat_orderKey, toNat_orderKey] at hkeys
  have hbits : x.bits.toNat = y.bits.toNat := by
    split at hkeys <;> split at hkeys <;> omega
  obtain ⟨b⟩ := x
  obtain ⟨d⟩ := y
  exact congrArg mk (UInt64.toNat_inj.mp hbits)

instance : Std.TransOrd Double := inferInstanceAs (Std.TransCmp (compareOn orderKey))

instance : Std.LawfulEqOrd Double where
  compare_self := @fun x => @Std.ReflCmp.compare_self _ (compareOn orderKey) _ x
  eq_of_compare h := orderKey_injective (@Std.LawfulEqCmp.eq_of_compare _ compare _ _ _ h)

/-! ### Magnitudes -/

theorem toNat_magnitude (x : Double) : x.magnitude.toNat = x.bits.toNat % 2 ^ 63 := by
  rw [magnitude, UInt64.toNat_and]
  exact Nat.and_two_pow_sub_one_eq_mod _ 63

theorem magnitude_abs (x : Double) : (Scalar.abs x : Double).magnitude = x.magnitude := by
  show x.bits &&& _ &&& _ = x.bits &&& _
  rw [UInt64.and_assoc, UInt64.and_self]

theorem isNegative_abs (x : Double) : (Scalar.abs x : Double).isNegative = false := by
  have hlt : x.magnitude.toNat < 2 ^ 63 := by
    rw [toNat_magnitude]
    exact Nat.mod_lt _ (by decide)
  show decide (signBit ≤ x.magnitude) = false
  rw [decide_eq_false_iff_not, UInt64.le_iff_toNat_le, signBit]
  simp only [UInt64.reduceToNat]
  omega

/-- Below a number without sign the magnitude is smaller as a pattern. -/
theorem magnitude_lt_of_abs_lt {x b : Double} (hb : b.isNegative = false)
    (h : (Scalar.abs x : Double) < b) : x.magnitude < b.magnitude := by
  have hless : (Scalar.abs x : Double).less b = true := h
  rw [less, isNegative_abs, hb, magnitude_abs] at hless
  simp at hless
  exact hless.2

/-! ### Rounding -/

theorem mantissa_shiftRight (em : ExtendedMantissa) (k : ℕ) :
    (em >>> k).mantissa = em.mantissa / 2 ^ k := by
  induction k with
  | zero => exact (Nat.div_one _).symm
  | succ k ih =>
    show (em >>> k).mantissa / 2 = _
    rw [ih, Nat.div_div_eq_div_mul, pow_succ]

/-- The bit after a shifted mantissa is the last one that was shifted out. -/
theorem roundBit_shiftRight_succ (em : ExtendedMantissa) (k : ℕ) :
    (em >>> (k + 1)).roundBit = (em.mantissa / 2 ^ k % 2 != 0) := by
  show ((em >>> k).mantissa % 2 != 0) = _
  rw [mantissa_shiftRight]

/-- A mantissa is rounded up by one at most, and only when the bit after it is set. -/
theorem roundedMantissa_le (em : ExtendedMantissa) :
    em.roundedMantissa ≤ em.mantissa + em.roundBit.toNat := by
  obtain ⟨m, round, sticky⟩ := em
  have hparity : m % 2 < 2 := Nat.mod_lt _ (by decide)
  cases round <;> cases sticky <;>
    simp only [ExtendedMantissa.roundedMantissa, ExtendedMantissa.accuracy,
      Accuracy.roundToNearestEven, Bool.toNat_false, Bool.toNat_true] <;> omega

/-- A mantissa that lies half a unit below a power of two stays below it when it is rounded. -/
theorem roundedMantissa_shiftRight_lt {em : ExtendedMantissa} {d k : ℕ}
    (hm : em.mantissa < (2 ^ 54 - 1) * 2 ^ d) (hk : k ≤ d + 1) :
    (em >>> k).roundedMantissa < 2 ^ (54 + d - k) := by
  have hround := roundedMantissa_le (em >>> k)
  rw [mantissa_shiftRight] at hround
  cases k with
  | zero =>
    have hbit := Bool.toNat_le (em >>> 0).roundBit
    rw [pow_zero, Nat.div_one] at hround
    rw [Nat.sub_zero, pow_add]
    have hpos : 0 < 2 ^ d := by positivity
    omega
  | succ j =>
    -- the mantissa is rounded up only when it is odd before the last bit is dropped
    have hhalf : (em >>> (j + 1)).roundedMantissa ≤ (em.mantissa / 2 ^ j + 1) / 2 := by
      rw [roundBit_shiftRight_succ, pow_succ, ← Nat.div_div_eq_div_mul] at hround
      generalize em.mantissa / 2 ^ j = q at hround ⊢
      rcases Nat.mod_two_eq_zero_or_one q with hq | hq <;> simp [hq] at hround <;> omega
    obtain ⟨i, rfl⟩ := Nat.exists_eq_add_of_le (Nat.le_of_succ_le_succ hk)
    have hlt : em.mantissa / 2 ^ j < (2 ^ 54 - 1) * 2 ^ i := by
      rw [Nat.div_lt_iff_lt_mul (by positivity), mul_assoc, ← pow_add, add_comm i j]
      exact hm
    have hexp : 54 + (j + i) - (j + 1) = 53 + i := by omega
    rw [hexp, pow_add]
    have hpos : 0 < 2 ^ i := by positivity
    omega

/-- Whether a rounded number lies in the range of the format. -/
def Fits : UnpackedFloat → Prop
  | .finite _ _ e _ => e ≤ 971
  | .zero _ => True
  | _ => False

/-- Rounding leaves the range of the format only from half a unit beyond its greatest number. -/
theorem fits_roundWithAccuracy (s : Sign) {m d : ℕ} (a : Accuracy) (h : m < (2 ^ 54 - 1) * 2 ^ d) :
    Fits (roundWithAccuracy .binary64 s m (970 - d) a) := by
  have hlog : ∀ {r k : ℕ}, r < 2 ^ (54 + d - k) → k ≤ d + 1 → (r.log2 : ℤ) ≤ 53 + d - k := by
    intro r k hr hk
    rcases Nat.eq_zero_or_pos r with rfl | hpos
    · rw [Nat.log2_zero]
      omega
    · have := (Nat.log2_lt hpos.ne').mpr hr
      omega
  have hmantissa : (ExtendedMantissa.ofMantissaAndAccuracy m a).mantissa = m := by
    rcases a with _ | (_ | _ | _) <;> rfl
  have hm : (m.log2 : ℤ) ≤ 53 + d := by
    have hlt : m < 2 ^ (54 + d - 0) := by
      rw [Nat.sub_zero, pow_add]
      have hpos : 0 < 2 ^ d := by positivity
      omega
    simpa using hlog hlt (Nat.zero_le _)
  -- rounding drops `k` bits, which is one more than the bound leaves at most
  obtain ⟨k, hk⟩ : ∃ k, k = (Format.targetExponent .binary64 (totalExponent m (970 - d))
    - (970 - d)).toNat := ⟨_, rfl⟩
  have hkd : k ≤ d + 1 := by
    rw [hk]
    simp only [Format.targetExponent, totalExponent, Format.mantissaBits, Format.minExponent]
    omega
  have hr := roundedMantissa_shiftRight_lt (hmantissa.symm ▸ h) hkd
  have hrlog := hlog hr hkd
  rw [roundWithAccuracy]
  simp only [shiftToTargetExponent, shiftToExponent, ← hk]
  split
  · trivial
  · simp only [Fits, Format.targetExponent, totalExponent, Format.mantissaBits, Format.minExponent]
    omega

/-! ### Fields of a pattern -/

theorem unpackSign_packComponents {spec : Format} {s : Sign} {e : BitVec spec.exponentBits}
    {m : BitVec spec.mantissaBitsWithoutImplicit} :
    unpackSign (packComponents spec s e m) = s.toBitVec := by
  ext i hi
  obtain rfl : i = 0 := by omega
  simp [unpackSign, packComponents, BitVec.getLsbD_append, BitVec.getElem_append]

theorem toNat_unpackExponent (b : BitVec 64) :
    (@unpackExponent .binary64 b).toNat = b.toNat / 2 ^ 52 % 2 ^ 11 := by
  simp [unpackExponent, BitVec.extractLsb, Nat.shiftRight_eq_div_pow]

theorem toNat_unpackMantissa (b : BitVec 64) :
    (@unpackMantissa .binary64 b).toNat = b.toNat % 2 ^ 52 := by
  simp [unpackMantissa, BitVec.extractLsb]

theorem toNat_one_append (m : BitVec 52) : (1#1 ++ m).toNat = 2 ^ 52 + m.toNat := by
  rw [BitVec.toNat_append, ← Nat.shiftLeft_add_eq_or_of_lt m.isLt]
  rfl

/-- The number that a pattern stands for. -/
def value (x : Double) : UnpackedFloat := unpack .binary64 x.bits.toBitVec

/-- A finite number has at most 53 bits, and its pattern counts the numbers below it. -/
theorem unpack_eq_finite {b : BitVec 64} {s : Sign} {m : ℕ} {e : ℤ} {h : 0 < m}
    (hb : unpack .binary64 b = .finite s m e h) :
    ∃ k : ℕ, k ≤ 2045 ∧ e = k - 1074 ∧ m < 2 ^ 53 ∧ (k = 0 ∨ 2 ^ 52 ≤ m)
      ∧ b.toNat % 2 ^ 63 = 2 ^ 52 * k + m := by
  have hsplit : b.toNat % 2 ^ 63 = 2 ^ 52 * (b.toNat / 2 ^ 52 % 2 ^ 11) + b.toNat % 2 ^ 52 := by
    omega
  have hmantissa := toNat_unpackMantissa b
  have hexponent := toNat_unpackExponent b
  rw [UnpackedFloat.unpack] at hb
  split at hb
  · split at hb <;> cases hb
  · rename_i hall
    have hne : b.toNat / 2 ^ 52 % 2 ^ 11 ≠ 2047 := fun heq =>
      hall (BitVec.eq_of_toNat_eq (hexponent.trans heq))
    -- without exponent the mantissa is the number, with one it has a leading bit that is not stored
    split at hb
    · rename_i hzero
      have hzero : b.toNat / 2 ^ 52 % 2 ^ 11 = 0 := by
        rw [← hexponent, hzero]
        rfl
      split at hb
      · cases hb
      · obtain ⟨rfl, rfl, rfl⟩ := UnpackedFloat.finite.inj hb
        rw [hmantissa, hexponent, hzero, hsplit, hzero]
        refine ⟨0, by omega, by rfl, by omega, .inl rfl, by omega⟩
    · rename_i hzero
      have hzero : b.toNat / 2 ^ 52 % 2 ^ 11 ≠ 0 := fun heq =>
        hzero (BitVec.eq_of_toNat_eq (hexponent.trans heq))
      obtain ⟨rfl, rfl, rfl⟩ := UnpackedFloat.finite.inj hb
      rw [toNat_one_append, hmantissa, hexponent, hsplit]
      generalize b.toNat / 2 ^ 52 % 2 ^ 11 = k at *
      refine ⟨k - 1, by omega, ?_, by omega, .inr (by omega), by omega⟩
      simp only [Format.exponentBias]
      omega

theorem toNat_ofNat_of_lt {w n : ℕ} (h : n < 2 ^ w) : (BitVec.ofNat w n).toNat = n := by
  rw [BitVec.toNat_ofNat, Nat.mod_eq_of_lt h]

/-- A pattern with an exponent stands for a number of 53 bits. -/
theorem unpack_packComponents_normal (s : Sign) {m k : ℕ} (hk : k ≤ 2045) (hlow : 2 ^ 52 ≤ m)
    (hm : m < 2 ^ 53) : unpack .binary64 (packComponents .binary64 s (.ofNat 11 (k + 1)) (.ofNat 52 m))
      = .finite s m (k - 1074) (Nat.lt_of_lt_of_le (by decide) hlow) := by
  have hsign : Sign.ofBitVec s.toBitVec = s := by cases s <;> rfl
  have hexponent : (BitVec.ofNat 11 (k + 1)).toNat = k + 1 := toNat_ofNat_of_lt (by omega)
  have hall : BitVec.ofNat 11 (k + 1) ≠ -1#11 := by
    rw [← BitVec.toNat_ne_iff_ne, hexponent]
    simp
    omega
  have hzero : BitVec.ofNat 11 (k + 1) ≠ 0#11 := by
    rw [← BitVec.toNat_ne_iff_ne, hexponent]
    simp
  rw [UnpackedFloat.unpack]
  simp only [unpackExponent_packComponents, unpackMantissa_packComponents, unpackSign_packComponents,
    if_neg hall, if_neg hzero, hsign, toNat_one_append, hexponent]
  congr 1
  · rw [BitVec.toNat_ofNat]
    omega
  · simp only [Format.exponentBias]
    omega

/-- A pattern without exponent stands for a number of fewer bits. -/
theorem unpack_packComponents_subnormal (s : Sign) {m : ℕ} (hpos : 0 < m) (hm : m < 2 ^ 52) :
    unpack .binary64 (packComponents .binary64 s 0#11 (.ofNat 52 m)) = .finite s m (-1074) hpos := by
  have hsign : Sign.ofBitVec s.toBitVec = s := by cases s <;> rfl
  have hmantissa : BitVec.ofNat 52 m ≠ 0#52 := by
    rw [← BitVec.toNat_ne_iff_ne, toNat_ofNat_of_lt hm]
    exact hpos.ne'
  rw [UnpackedFloat.unpack]
  simp only [unpackExponent_packComponents, unpackMantissa_packComponents, unpackSign_packComponents,
    hsign, dif_neg hmantissa, toNat_ofNat_of_lt hm]
  rfl

/-- **Packing keeps a number in the range of the format.** -/
theorem unpack_pack_finite (s : Sign) {m k : ℕ} {h : 0 < m} (hm : m < 2 ^ 53) (hk : k ≤ 2045)
    (hnormal : k = 0 ∨ 2 ^ 52 ≤ m) : unpack .binary64 (pack .binary64 (.finite s m (k - 1074) h))
      = .finite s m (k - 1074) h := by
  have hbias : ((k : ℤ) - 1074 + Format.binary64.exponentBias + (52 : ℕ)).toNat = k + 1 := by
    simp only [Format.exponentBias]
    omega
  -- a number of 53 bits is written with its exponent, one of fewer bits without
  rw [UnpackedFloat.pack]
  simp only [hbias, if_neg (show ¬ 2 ^ 11 ≤ k + 1 + 1 by omega)]
  split
  · rename_i hlog
    have hlow : 2 ^ m.log2 ≤ m := Nat.log2_self_le h.ne'
    rw [show m.log2 = 52 from Nat.succ.inj hlog] at hlow
    exact unpack_packComponents_normal s hk hlow hm
  · rename_i hlog
    have hlow : m < 2 ^ 52 := by
      by_contra hge
      have hlog' := (Nat.log2_eq_iff h.ne').mpr ⟨not_lt.mp hge, hm⟩
      exact hlog (congrArg (· + 1) hlog')
    obtain rfl : k = 0 := by omega
    exact unpack_packComponents_subnormal s h hlow

/-- Packing keeps the number that a pattern stands for. -/
theorem unpack_pack_unpack (b : BitVec 64) :
    unpack .binary64 (pack .binary64 (unpack .binary64 b)) = unpack .binary64 b := by
  cases hb : UnpackedFloat.unpack .binary64 b with
  | infinity s => cases s <;> rfl
  | notANumber => rfl
  | zero s => cases s <;> rfl
  | finite s m e h =>
    obtain ⟨k, hk, rfl, hm, hnormal, -⟩ := unpack_eq_finite hb
    exact unpack_pack_finite s hm hk hnormal

/-- A pattern stands for a finite number unless all bits of its exponent are set. -/
theorem isFinite_unpack_iff (b : BitVec 64) :
    (UnpackedFloat.unpack .binary64 b).isFinite ↔ @unpackExponent .binary64 b ≠ -1#11 := by
  rw [UnpackedFloat.unpack]
  simp only
  split
  · rename_i h
    split <;> simpa [UnpackedFloat.isFinite] using h
  · rename_i h
    split
    · split <;> simpa [UnpackedFloat.isFinite] using h
    · simpa [UnpackedFloat.isFinite] using h

/-- Finiteness read off the pattern is finiteness of the number. -/
theorem isFinite_eq_value (x : Double) : x.isFinite = x.value.isFinite := by
  have hall : @unpackExponent .binary64 x.bits.toBitVec ≠ -1#11
      ↔ x.bits.toNat / 2 ^ 52 % 2 ^ 11 ≠ 2047 := by
    rw [← BitVec.toNat_ne_iff_ne, toNat_unpackExponent]
    rfl
  rw [Bool.eq_iff_iff, value, isFinite_unpack_iff, hall, isFinite, decide_eq_true_eq,
    UInt64.lt_iff_toNat_lt, toNat_magnitude, infinityBits]
  simp only [UInt64.reduceToNat]
  omega

/-- A number in the range of the format is packed as a finite number. -/
theorem isFinite_unpack_pack {u : UnpackedFloat} (h : Fits u) :
    (UnpackedFloat.unpack .binary64 (UnpackedFloat.pack .binary64 u)).isFinite := by
  rw [isFinite_unpack_iff]
  cases u with
  | infinity s => exact h.elim
  | notANumber => exact h.elim
  | zero s => cases s <;> decide
  | finite s m e hm =>
    have hle : e ≤ 971 := h
    -- 2047 is the exponent of the infinities
    have hbiased : (e + Format.binary64.exponentBias + (52 : ℕ)).toNat < 2047 := by
      simp only [Format.exponentBias]
      omega
    rw [UnpackedFloat.pack]
    simp only [if_neg (show ¬ 2 ^ 11 ≤ (e + Format.binary64.exponentBias + (52 : ℕ)).toNat + 1 by
      omega)]
    split
    · rw [unpackExponent_packComponents, ← BitVec.toNat_ne_iff_ne, BitVec.toNat_ofNat,
        Nat.mod_eq_of_lt (hbiased.trans (by decide))]
      exact hbiased.ne
    · rw [unpackExponent_packComponents]
      decide

/-! ### Operations -/

theorem not_isFinite_of_isNaN {x : Double} (h : x.isNaN) : x.isFinite = false := by
  simp only [isNaN, decide_eq_true_eq] at h
  simp only [isFinite, decide_eq_false_iff_not]
  exact UInt64.lt_asymm h

theorem isNaN_of_isFinite {x : Double} (h : x.isFinite) : x.isNaN = false := by
  cases hx : x.isNaN with
  | false => rfl
  | true => rw [not_isFinite_of_isNaN hx] at h; cases h

/-- On finite operands an operation is that of the machine. -/
theorem combine_of_isFinite (op : Float → Float → Float) {x y : Double} (hx : x.isFinite)
    (hy : y.isFinite) : combine op x y = ofFloat (op x.toFloat y.toFloat) := by
  rw [combine, isNaN_of_isFinite hx, isNaN_of_isFinite hy]
  rfl

/-- The machine number of a pattern is the number that it stands for. -/
theorem unpack_toFloat (x : Double) : x.toFloat.toModel.unpack = x.value :=
  unpack_pack_unpack x.bits.toBitVec

theorem isFinite_ofFloat (f : Float) : (ofFloat f).isFinite = f.toModel.unpack.isFinite := by
  rw [ofFloat]
  split
  · rename_i h
    have hnan : f.toModel.unpack.isNaN := h
    cases hf : f.toModel.unpack with
    | notANumber => rfl
    | _ => rw [hf] at hnan; cases hnan
  · exact isFinite_eq_value _

/-- An infinite summand, or one that is no number, makes a sum that is not finite. -/
theorem add_eq_of_not_isFinite {u v : UnpackedFloat} (h : ¬ (u.isFinite ∧ v.isFinite)) :
    (∃ s, UnpackedFloat.add .binary64 u v = .infinity s)
      ∨ UnpackedFloat.add .binary64 u v = .notANumber := by
  cases u with
  | notANumber => exact .inr rfl
  | infinity s =>
    cases v with
    | notANumber => exact .inr rfl
    | infinity t => cases s <;> cases t <;> simp [UnpackedFloat.add]
    | zero t => exact .inl ⟨s, rfl⟩
    | finite t m e hm => exact .inl ⟨s, rfl⟩
  | zero s =>
    cases v with
    | notANumber => exact .inr rfl
    | infinity t => exact .inl ⟨t, rfl⟩
    | zero t => exact absurd ⟨rfl, rfl⟩ h
    | finite t m e hm => exact absurd ⟨rfl, rfl⟩ h
  | finite s m e hm =>
    cases v with
    | notANumber => exact .inr rfl
    | infinity t => exact .inl ⟨t, rfl⟩
    | zero t => exact absurd ⟨rfl, rfl⟩ h
    | finite t n f hn => exact absurd ⟨rfl, rfl⟩ h

/-- **A sum is finite only when both summands are.** -/
theorem isFinite_of_isFinite_add {x y : Double} (h : (x + y).isFinite) :
    x.isFinite ∧ y.isFinite := by
  have hadd : x + y = if x.isNaN then x else if y.isNaN then y
    else ofFloat (x.toFloat + y.toFloat) := rfl
  have hsum : (x.toFloat + y.toFloat).toModel
      = Float.Model.pack (UnpackedFloat.add .binary64 x.value y.value) := by
    rw [← unpack_toFloat, ← unpack_toFloat]
    rfl
  rw [hadd] at h
  split at h
  · rename_i hx
    rw [not_isFinite_of_isNaN hx] at h
    cases h
  · split at h
    · rename_i hy
      rw [not_isFinite_of_isNaN hy] at h
      cases h
    · -- a sum with an infinite summand is infinite or undefined
      rw [isFinite_ofFloat, hsum] at h
      rw [isFinite_eq_value, isFinite_eq_value]
      by_contra hnot
      obtain ⟨s, hs⟩ | hnan := add_eq_of_not_isFinite hnot
      · rw [hs] at h
        cases s <;> cases h
      · rw [hnan] at h
        cases h

/-- A product is finite when it stays half a unit below the end of the range. -/
theorem isFinite_mul {f g : Float} {t : Sign} {n : ℕ} {k : ℤ} {hn : 0 < n}
    (hg : g.toModel.unpack = .finite t n k hn) (hf : f.toModel.unpack.isFinite)
    (hbelow : ∀ {s m e hm}, f.toModel.unpack = .finite s m e hm →
      ∃ d : ℕ, e + k = 970 - d ∧ m * n < (2 ^ 54 - 1) * 2 ^ d) :
    (f * g).toModel.unpack.isFinite := by
  show (UnpackedFloat.unpack .binary64 (UnpackedFloat.pack .binary64
    (UnpackedFloat.mul .binary64 f.toModel.unpack g.toModel.unpack))).isFinite
  rw [hg]
  refine isFinite_unpack_pack ?_
  cases hu : f.toModel.unpack with
  | infinity s => rw [hu] at hf; cases hf
  | notANumber => rw [hu] at hf; cases hf
  | zero s => trivial
  | finite s m e hm =>
    obtain ⟨d, hd, hlt⟩ := hbelow hu
    show Fits (roundWithAccuracy .binary64 (s * t) (m * n) (e + k) .exact)
    rw [hd]
    exact fits_roundWithAccuracy _ _ hlt

/-- A quotient by a number from `2 ^ 19` on is finite. -/
theorem isFinite_div {f g : Float} {t : Sign} {n : ℕ} {hn : 0 < n}
    (hg : g.toModel.unpack = .finite t n (-33) hn) (hlow : 2 ^ 52 ≤ n)
    (hf : f.toModel.unpack.isFinite) : (f / g).toModel.unpack.isFinite := by
  show (UnpackedFloat.unpack .binary64 (UnpackedFloat.pack .binary64
    (UnpackedFloat.div .binary64 f.toModel.unpack g.toModel.unpack))).isFinite
  rw [hg]
  refine isFinite_unpack_pack ?_
  cases hu : f.toModel.unpack with
  | infinity s => rw [hu] at hf; cases hf
  | notANumber => rw [hu] at hf; cases hf
  | zero s => trivial
  | finite s m e hm =>
    obtain ⟨k, hk, rfl, hlt, -⟩ := unpack_eq_finite hu
    have hlog : m.log2 < 53 := (Nat.log2_lt hm.ne').mpr hlt
    have hlogn : 52 ≤ n.log2 := (Nat.le_log2 hn.ne').mpr hlow
    -- the exponent of the quotient, and the shift of the dividend that leads to it
    obtain ⟨q, hq⟩ : ∃ q, q = min ((k : ℤ) - 1074 - -33) (Format.targetExponent .binary64
      (totalExponent m (k - 1074) - totalExponent n (-33))) := ⟨_, rfl⟩
    obtain ⟨i, hi⟩ : ∃ i, i = ((k : ℤ) - 1074 - -33 - q).toNat := ⟨_, rfl⟩
    have hbounds : q ≤ 970 ∧ (i : ℤ) + q ≤ 1004 := by
      simp only [Format.targetExponent, totalExponent, Format.mantissaBits, Format.minExponent] at hq
      omega
    obtain ⟨d, rfl⟩ : ∃ d : ℕ, q = 970 - d := ⟨(970 - q).toNat, by omega⟩
    have hquotient : (m <<< i) / n < (2 ^ 54 - 1) * 2 ^ d := by
      have hpow : 2 ^ i ≤ 2 ^ (d + 34) := Nat.pow_le_pow_right (by decide) (by omega)
      rw [Nat.div_lt_iff_lt_mul hn, Nat.shiftLeft_eq]
      rw [pow_add] at hpow
      calc m * 2 ^ i < 2 ^ 53 * (2 ^ d * 2 ^ 34) :=
            Nat.mul_lt_mul_of_lt_of_le hlt hpow (by positivity)
        _ ≤ (2 ^ 54 - 1) * 2 ^ d * 2 ^ 52 := by omega
        _ ≤ (2 ^ 54 - 1) * 2 ^ d * n := Nat.mul_le_mul_left _ hlow
    show Fits (roundWithAccuracy .binary64 (s / t) (divCore .binary64 m (k - 1074) n (-33)).1
      (divCore .binary64 m (k - 1074) n (-33)).2.1 (divCore .binary64 m (k - 1074) n (-33)).2.2)
    simp only [divCore, ← hq, ← hi]
    exact fits_roundWithAccuracy _ _ hquotient

/-! ### Whole numbers -/

/-- A finite number times one is finite. -/
theorem isFinite_mul_one {f : Float} (h : f.toModel.unpack.isFinite) :
    (f * Float.ofBits 0x3ff0000000000000).toModel.unpack.isFinite := by
  have hone : (Float.ofBits 0x3ff0000000000000).toModel.unpack
      = .finite .positive (2 ^ 52) (-52) (by decide) := by rfl
  refine isFinite_mul hone h fun {s m e hm} hf => ?_
  obtain ⟨k, hk, rfl, hlt, -⟩ := unpack_eq_finite hf
  have hpow : 2 ^ 51 ≤ 2 ^ (2096 - k) := Nat.pow_le_pow_right (by decide) (by omega)
  refine ⟨2096 - k, by omega, ?_⟩
  generalize 2 ^ (2096 - k) = p at hpow ⊢
  omega

/-- Natural numbers of at most 53 bits are finite doubles. -/
theorem isFinite_ofNat {n : ℕ} (h : n < 2 ^ 53) : (ofNat n).isFinite := by
  rcases Nat.eq_zero_or_pos n with rfl | hpos
  · decide
  have hn : n.toUInt64.toNat = n := by
    simp
    omega
  -- the number is turned into a double and multiplied by one, and only the first step could round
  have hofNat : ofNat n = ofFloat (n.toUInt64.toFloat * Float.ofBits 0x3ff0000000000000) := by
    rw [ofNat, ofDecimal, if_neg hpos.ne']
    show ofFloat (Float.ofScientific n false 0) = _
    rw [Float.ofScientific, dif_pos ⟨h, by decide⟩]
    rfl
  have hround : n.toUInt64.toFloat.toModel
      = Float.Model.pack (UnpackedFloat.round .binary64 .positive n 0) := by
    show Float.Model.pack (normalize .binary64 n.toUInt64.toNat 0 .positive) = _
    rw [hn, UnpackedFloat.normalize]
    have hcompare : compare (n : ℤ) 0 = .gt := Int.compare_eq_gt.mpr (by omega)
    rw [hcompare]
    rfl
  rw [hofNat, isFinite_ofFloat]
  refine isFinite_mul_one ?_
  rw [hround]
  refine isFinite_unpack_pack ?_
  rw [UnpackedFloat.round]
  simp only [decreaseExponent]
  generalize (0 - Format.targetExponent .binary64 (totalExponent n 0)).toNat = i
  have hexp : (0 : ℤ) - i = 970 - (970 + i : ℕ) := by omega
  -- whatever shift makes room for the fraction, the value stays that of the number
  have hlt : n <<< i < (2 ^ 54 - 1) * 2 ^ (970 + i) := by
    have hpow : 2 ^ i ≤ 2 ^ (970 + i) := Nat.pow_le_pow_right (by decide) (by omega)
    rw [Nat.shiftLeft_eq]
    exact Nat.mul_lt_mul_of_lt_of_le (h.trans (by norm_num)) hpow (by positivity)
  rw [hexp]
  exact fits_roundWithAccuracy _ _ hlt

theorem isFinite_negate (x : Double) : x.negate.isFinite = x.isFinite := by
  have hmagnitude : x.negate.magnitude = x.magnitude := by
    have hsign : signBit.toNat &&& 0x7fffffffffffffff = 0 := by rfl
    rw [← UInt64.toNat_inj, magnitude, magnitude, negate, UInt64.toNat_and, UInt64.toNat_and,
      UInt64.toNat_xor, Nat.and_xor_distrib_right]
    exact (congrArg _ hsign).trans (Nat.xor_zero _)
  rw [isFinite, hmagnitude, isFinite]

/-- Without its fraction a significand is at least halved, before it is rounded. -/
theorem roundedSignificand_lt {x : Double} (hneg : x.exponent < 0) :
    (2 * x.significand + 2 ^ (-x.exponent).toNat) / (2 * 2 ^ (-x.exponent).toNat) < 2 ^ 53 := by
  have hsignificand : x.significand < 2 ^ 53 := by
    have hfraction : (x.bits &&& 0xfffffffffffff).toNat < 2 ^ 52 := by
      rw [UInt64.toNat_and]
      exact (Nat.and_two_pow_sub_one_eq_mod _ 52).symm ▸ Nat.mod_lt _ (by decide)
    rw [significand]
    split <;> omega
  have hd : 2 ≤ 2 ^ (-x.exponent).toNat := Nat.le_self_pow (by omega) 2
  rw [Nat.div_lt_iff_lt_mul (by omega)]
  omega

/-- Rounding to a whole number keeps a finite number finite. -/
theorem isFinite_round {x : Double} (hx : x.isFinite) : x.round.isFinite := by
  rw [round]
  split
  · exact hx
  · rename_i hwhole
    have hneg : x.exponent < 0 := by simpa [hx] using hwhole
    have hn := roundedSignificand_lt hneg
    simp only [Nat.pow_eq]
    split
    · rw [isFinite_negate]
      exact isFinite_ofNat hn
    · exact isFinite_ofNat hn

theorem isFinite_of_isZero {x : Double} (h : Scalar.isZero x) : x.isFinite := by
  have hzero : x.magnitude = 0 := by
    have hnum : (!x.isNaN && !(0 : Double).isNaN && (x.bits == (0 : Double).bits
        || (x.magnitude == 0 && (0 : Double).magnitude == 0))) = true := h
    simp only [Bool.and_eq_true, Bool.or_eq_true, beq_iff_eq] at hnum
    obtain ⟨-, hbits | ⟨hmagnitude, -⟩⟩ := hnum
    · rw [magnitude, hbits]
      rfl
    · exact hmagnitude
  rw [isFinite, hzero]
  rfl

end Double

end RelationalLP
