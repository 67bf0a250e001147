import Mathlib
import RelationalLP.Number.Numeral
import RelationalLP.Proofs.Logic.Scanning
import RelationalLP.Proofs.Number.NearestDoubles
import RelationalLP.Proofs.Number.ShortestDecimals

/-! # Plain numerals

The plain text of a finite double is a numeral without an exponent, and the numeral rounds to this double: the
shortest decimal lies between the middles to the neighbours of the double, and positional notation keeps the
value of a decimal. -/

namespace RelationalLP

/-! ### Positional numerals -/

namespace Numeral

/-- A fraction behind its point; no digits take no point. -/
def pointed (fraction : List Char) : List Char := if fraction = [] then [] else '.' :: fraction

/-- **A numeral without an exponent**: digits behind a sign, and possibly a fraction. -/
structure Positional (text : List Char) (negative : Bool) (whole fraction : List Char) : Prop where
  /-- The parts in order. -/
  text_eq : text = (if negative then ['-'] else []) ++ (whole ++ pointed fraction)
  /-- There are digits before the point. -/
  whole_ne_nil : whole ≠ []
  /-- They are digits. -/
  whole_digits : ∀ d ∈ whole, d.isDigit = true
  /-- They are digits. -/
  fraction_digits : ∀ d ∈ fraction, d.isDigit = true

/-- The value of digits around a point. -/
def magnitude (whole fraction : List Char) : ℚ := value (whole ++ fraction) / 10 ^ fraction.length

theorem value_append (xs ys : List Char) : value (xs ++ ys) = value xs * 10 ^ ys.length + value ys := by
  have hvalue : ∀ zs, value zs = Nat.ofDigitChars 10 zs 0 := fun zs => Nat.ofDigitChars_eq_foldl.symm
  rw [hvalue, hvalue, hvalue, Nat.ofDigitChars_append, Nat.ofDigitChars_eq_ofDigitChars_zero, Nat.mul_comm]

theorem value_zeros (n : ℕ) : value (List.replicate n '0') = 0 := by
  induction n with
  | zero => rfl
  | succ n ih =>
    rw [List.replicate_succ', value_append, ih, Nat.zero_mul]
    rfl

/-- A point or the end of the text ends the digits before it. -/
theorem takeWhile_pointed {whole : List Char} (hwhole : ∀ d ∈ whole, d.isDigit = true)
    (fraction : List Char) : (whole ++ pointed fraction).takeWhile Char.isDigit = whole := by
  rw [List.takeWhile_append_of_pos hwhole, pointed]
  split
  · exact List.append_nil whole
  · rw [List.takeWhile_cons_of_neg (by decide), List.append_nil]

theorem pointed_injective : Function.Injective pointed := by
  intro fraction fraction' h
  rw [pointed, pointed] at h
  split at h <;> split at h <;> simp_all

/-- **A text is a numeral in one way.** -/
theorem Positional.unique {text : List Char} {negative negative' : Bool}
    {whole whole' fraction fraction' : List Char} (h : Positional text negative whole fraction)
    (h' : Positional text negative' whole' fraction') :
    negative = negative' ∧ whole = whole' ∧ fraction = fraction' := by
  have hsign : ∀ {n n' w w' f f'}, Positional text n w f → Positional text n' w' f' → n = true →
      n' = true := by
    intro n n' w w' f f' hn hn' htrue
    by_contra hfalse
    obtain ⟨d, ds, rfl⟩ := List.exists_cons_of_ne_nil hn'.whole_ne_nil
    have htext := hn.text_eq.symm.trans hn'.text_eq
    rw [htrue, Bool.eq_false_iff.mpr hfalse] at htext
    have hminus : '-' = d := (List.cons.inj htext).1
    exact absurd (hminus ▸ hn'.whole_digits d List.mem_cons_self) (by decide)
  obtain rfl : negative = negative' := Bool.eq_iff_iff.mpr ⟨hsign h h', hsign h' h⟩
  have hparts : whole ++ pointed fraction = whole' ++ pointed fraction' :=
    List.append_cancel_left (h.text_eq.symm.trans h'.text_eq)
  have hwhole : whole = whole' := by
    rw [← takeWhile_pointed h.whole_digits fraction, hparts, takeWhile_pointed h'.whole_digits]
  rw [hwhole] at hparts
  exact ⟨rfl, hwhole, pointed_injective (List.append_cancel_left hparts)⟩

end Numeral

namespace DecimalLayout

open Numeral

/-- **Positional notation keeps the value** of digits and a power of ten, whether or not whole numbers keep
a fraction. -/
theorem exists_positional (layout : DecimalLayout) {digits : List Char}
    (hdigits : ∀ d ∈ digits, d.isDigit = true) (hne : digits ≠ []) (point : ℤ) :
    ∃ whole fraction, Positional (layout.positional digits point).toList false whole fraction
      ∧ (layout.keepFraction = true → fraction ≠ [])
      ∧ magnitude whole fraction = value digits * 10 ^ (point - digits.length) := by
  have hzeros : ∀ n, ∀ d ∈ List.replicate n '0', d.isDigit = true := by
    intro n d hd
    rw [List.eq_of_mem_replicate hd]
    rfl
  have hten : (10 : ℚ) ≠ 0 := by norm_num
  rw [positional]
  split
  · -- zeros stand between the point and the digits
    rename_i hpoint
    refine ⟨['0'], List.replicate (-point).toNat '0' ++ digits, ⟨?_, by simp, by simp, ?_⟩,
      fun _ => List.append_ne_nil_of_right_ne_nil _ hne, ?_⟩
    · simp [pointed, zeros, hne]
    · exact List.forall_mem_append.mpr ⟨hzeros _, hdigits⟩
    · have hexponent : point - digits.length = -((-point).toNat + digits.length : ℕ) := by
        push_cast
        omega
      have hvalue : value (['0'] ++ (List.replicate (-point).toNat '0' ++ digits)) = value digits := by
        rw [value_append, value_append, value_zeros, Nat.zero_mul, Nat.zero_add]
        exact (congrArg (· + _) (Nat.zero_mul _)).trans (Nat.zero_add _)
      rw [magnitude, hvalue, List.length_append, List.length_replicate, hexponent, zpow_neg,
        zpow_natCast, div_eq_mul_inv]
  · rename_i hpoint
    split
    · -- zeros follow the digits, and one of them or nothing is behind the point
      rename_i hlen
      have hexponent : point - digits.length = (point.toNat - digits.length : ℕ) := by omega
      have hvalue : (value (digits ++ List.replicate (point.toNat - digits.length) '0') : ℚ)
          = value digits * 10 ^ (point - digits.length) := by
        rw [value_append, value_zeros, List.length_replicate, hexponent, zpow_natCast]
        push_cast
        rw [add_zero]
      refine ⟨digits ++ List.replicate (point.toNat - digits.length) '0',
        if layout.keepFraction then ['0'] else [],
        ⟨?_, by simp [hne], List.forall_mem_append.mpr ⟨hdigits, hzeros _⟩, ?_⟩, ?_, ?_⟩
      · cases layout.keepFraction <;> simp [pointed, zeros]
      · cases layout.keepFraction <;> simp
      · intro hkeep
        simp [hkeep]
      · rw [magnitude, ← hvalue]
        cases layout.keepFraction with
        | false => simp
        | true =>
          rw [if_pos rfl, value_append _ ['0'], show value ['0'] = 0 from rfl]
          simp
    · -- the point stands between the digits
      rename_i hlen
      refine ⟨digits.take point.toNat, digits.drop point.toNat, ⟨?_, ?_, ?_, ?_⟩, fun _ => ?_, ?_⟩
      · simp [pointed, hlen]
      · rw [ne_eq, List.take_eq_nil_iff]
        rintro (hzero | hnil)
        · omega
        · exact hne hnil
      · exact fun d hd => hdigits d (List.mem_of_mem_take hd)
      · exact fun d hd => hdigits d (List.mem_of_mem_drop hd)
      · rw [ne_eq, List.drop_eq_nil_iff]
        exact hlen
      · have hexponent : point - digits.length = -((digits.drop point.toNat).length : ℕ) := by
          rw [List.length_drop]
          omega
        rw [magnitude, List.take_append_drop, hexponent, zpow_neg, zpow_natCast, div_eq_mul_inv]

/-- The digits of a decimal are written as a numeral of its value. -/
theorem exists_positional_digits (layout : DecimalLayout) (d : Decimal) :
    ∃ whole fraction,
      Positional (layout.positional (Nat.toDigits 10 d.digits) d.point).toList false whole fraction
      ∧ (layout.keepFraction = true → fraction ≠ []) ∧ magnitude whole fraction = d.value := by
  obtain ⟨whole, fraction, htext, hkeep, hvalue⟩ := exists_positional layout
    (fun c hc => Nat.isDigit_of_mem_toDigits (by decide) (by decide) hc)
    (Nat.toDigits_ne_nil (n := d.digits) (b := 10)) d.point
  rw [Token.value_toDigits] at hvalue
  exact ⟨whole, fraction, htext, hkeep, hvalue⟩

end DecimalLayout

/-! ### The text of a double -/

namespace Double

open Decimal

variable {v : Double}

theorem significand_pos (h : v.magnitude.toNat ≠ 0) : 0 < v.significand := by
  rw [significand_eq]
  split <;> omega

theorem significand_lt (v : Double) : v.significand < 2 ^ 53 := by
  rw [significand_eq]
  split <;> omega

/-- The significand of a double is even when its pattern is. -/
theorem significand_mod_two (v : Double) : v.significand % 2 = v.magnitude.toNat % 2 := by
  rw [significand_eq]
  split <;> omega

/-- The gap below a power of two is narrow, but for the least ones. -/
theorem isNarrowBelow_iff (v : Double) :
    v.isNarrowBelow = true ↔ v.magnitude.toNat % 2 ^ 52 = 0 ∧ 2 ^ 53 ≤ v.magnitude.toNat := by
  have hfraction : v.bits &&& 0xfffffffffffff = 0 ↔ v.magnitude.toNat % 2 ^ 52 = 0 := by
    rw [← toNat_fraction, ← UInt64.toNat_inj]
    rfl
  have hpower : 0x20000000000000 ≤ v.magnitude ↔ 2 ^ 53 ≤ v.magnitude.toNat := by
    rw [UInt64.le_iff_toNat_le]
    rfl
  rw [isNarrowBelow, Bool.and_eq_true, beq_iff_eq, hfraction, decide_eq_true_eq, hpower]

/-- The width of the interval below a double, in quarters of its last place. -/
def quartersBelow (v : Double) : ℕ := if v.isNarrowBelow then 1 else 2

/-- A double is half a gap away from the middle to the one below it. -/
theorem two_mul_gap_below {n : ℕ} (h : n + 1 = v.magnitude.toNat) :
    2 * 2 ^ (n / 2 ^ 52 - 1) = v.quartersBelow * 2 ^ (v.magnitude.toNat / 2 ^ 52 - 1) := by
  have hnarrow := v.isNarrowBelow_iff
  rw [quartersBelow]
  split
  · rename_i hbelow
    obtain ⟨hzero, hle⟩ := hnarrow.mp hbelow
    have hexponent : v.magnitude.toNat / 2 ^ 52 - 1 = (n / 2 ^ 52 - 1) + 1 := by omega
    rw [hexponent, pow_succ' 2 (n / 2 ^ 52 - 1), Nat.one_mul]
  · rename_i hbelow
    have hexponent : n / 2 ^ 52 - 1 = v.magnitude.toNat / 2 ^ 52 - 1 := by
      rw [hnarrow, not_and_or] at hbelow
      omega
    rw [hexponent]

/-- A quarter of the last place, in units. -/
theorem quarter_eq (v : Double) :
    ((2 ^ (v.exponent - 2).toNat : ℕ) / (2 ^ (2 - v.exponent).toNat : ℕ) * unitsOfOne : ℚ)
      = 2 ^ (v.magnitude.toNat / 2 ^ 52 - 1) / 4 := by
  have hexponent := v.exponent_eq
  have hpow : 2 ^ (v.exponent - 2).toNat * unitsOfOne * 4
      = 2 ^ (v.magnitude.toNat / 2 ^ 52 - 1) * 2 ^ (2 - v.exponent).toNat := by
    rw [unitsOfOne, ← pow_add, ← pow_add, show 4 = 2 ^ 2 from rfl, ← pow_add]
    congr 1
    omega
  have hpos : ((2 ^ (2 - v.exponent).toNat : ℕ) : ℚ) ≠ 0 := Nat.cast_ne_zero.mpr (Nat.two_pow_pos _).ne'
  rw [div_mul_eq_mul_div, div_eq_div_iff hpos (by norm_num)]
  exact_mod_cast hpow

/-- The ends of the interval of a double, in units. -/
theorem target_eq (hne : v.magnitude.toNat ≠ 0) :
    ((target v.significand v.exponent v.isNarrowBelow).low
        / (target v.significand v.exponent v.isNarrowBelow).den * unitsOfOne : ℚ)
      = v.units - v.quartersBelow * 2 ^ (v.magnitude.toNat / 2 ^ 52 - 1) / 4
    ∧ ((target v.significand v.exponent v.isNarrowBelow).high
        / (target v.significand v.exponent v.isNarrowBelow).den * unitsOfOne : ℚ)
      = v.units + 2 ^ (v.magnitude.toNat / 2 ^ 52 - 1) / 2 := by
  have hquarter := v.quarter_eq
  have hexponent : (v.exponent + 1074).toNat = v.magnitude.toNat / 2 ^ 52 - 1 := by
    rw [exponent_eq]
    omega
  have hunits : (v.units : ℚ) = v.significand * 2 ^ (v.magnitude.toNat / 2 ^ 52 - 1) := by
    rw [units_eq, hexponent]
    push_cast
    rfl
  -- both ends are whole numbers of quarters of the last place
  have hends : ∀ k : ℕ, ((k * 2 ^ (v.exponent - 2).toNat : ℕ) / (2 ^ (2 - v.exponent).toNat : ℕ)
      * unitsOfOne : ℚ) = k * (2 ^ (v.magnitude.toNat / 2 ^ 52 - 1) / 4) := by
    intro k
    rw [← hquarter, Nat.cast_mul]
    ring
  have hpos := significand_pos hne
  have hle : v.quartersBelow ≤ 4 * v.significand := by
    rw [quartersBelow]
    split <;> omega
  constructor
  · refine (hends (4 * v.significand - v.quartersBelow)).trans ?_
    rw [hunits, Nat.cast_sub hle]
    push_cast
    ring
  · refine (hends (4 * v.significand + 2)).trans ?_
    rw [hunits]
    push_cast
    ring

/-- Zero is nearest to zero. -/
theorem nearest_zero : Nearest 0 0 := by
  refine nearest_of_between (fun n hn => absurd hn n.succ_ne_zero) ⟨?_, fun _ => rfl⟩
  rw [mul_zero]
  positivity

/-- An end belongs to the interval of an even pattern only. -/
theorem even_of_contains (hne : v.magnitude.toNat ≠ 0) {x : ℚ}
    (hx : (target v.significand v.exponent v.isNarrowBelow).Contains x)
    (hend : x * unitsOfOne = v.units - v.quartersBelow * 2 ^ (v.magnitude.toNat / 2 ^ 52 - 1) / 4
      ∨ x * unitsOfOne = v.units + 2 ^ (v.magnitude.toNat / 2 ^ 52 - 1) / 2) :
    v.magnitude.toNat % 2 = 0 := by
  by_contra hodd
  have hopen : (target v.significand v.exponent v.isNarrowBelow).closed = false := by
    simp only [target]
    rw [decide_eq_false_iff_not, significand_mod_two]
    exact hodd
  have hone : (0 : ℚ) < unitsOfOne := Nat.cast_pos.mpr unitsOfOne_pos
  obtain ⟨hlow, hhigh⟩ := target_eq hne
  obtain ⟨hlt, hlt'⟩ := hx.strict hopen
  have hlt := mul_lt_mul_of_pos_right hlt hone
  have hlt' := mul_lt_mul_of_pos_right hlt' hone
  rw [hlow] at hlt
  rw [hhigh] at hlt'
  rcases hend with heq | heq
  · exact hlt.ne' heq
  · exact hlt'.ne heq

/-- **What lies in the interval of a double rounds to it.** -/
theorem nearest_of_contains (hne : v.magnitude.toNat ≠ 0) {x : ℚ}
    (hx : (target v.significand v.exponent v.isNarrowBelow).Contains x) :
    Nearest (x * unitsOfOne) v.magnitude.toNat := by
  have hone : (0 : ℚ) < unitsOfOne := Nat.cast_pos.mpr unitsOfOne_pos
  obtain ⟨hlow, hhigh⟩ := target_eq hne
  have hbelow := mul_le_mul_of_nonneg_right hx.low_le hone.le
  have habove := mul_le_mul_of_nonneg_right hx.le_high hone.le
  rw [hlow] at hbelow
  rw [hhigh] at habove
  have heven := even_of_contains hne hx
  refine nearest_of_between (fun n hn => ?_) ?_
  · -- the lower end is half way to the double below, whose gap may be half as wide
    have hunits : v.units = unitsOf n + 2 ^ (n / 2 ^ 52 - 1) := by
      rw [units, ← hn, unitsOf_succ]
    have hgap : (2 * 2 ^ (n / 2 ^ 52 - 1) : ℚ)
        = v.quartersBelow * 2 ^ (v.magnitude.toNat / 2 ^ 52 - 1) := by
      exact_mod_cast two_mul_gap_below hn
    have hcast : (v.units : ℚ) = unitsOf n + 2 ^ (n / 2 ^ 52 - 1) := by exact_mod_cast hunits
    rw [← units]
    refine ⟨by linarith, fun heq => heven (.inl (by linarith))⟩
  · -- the upper end is half way to the double above
    have hcast : (unitsOf (v.magnitude.toNat + 1) : ℚ)
        = v.units + 2 ^ (v.magnitude.toNat / 2 ^ 52 - 1) := by
      rw [unitsOf_succ, units]
      push_cast
      rfl
    rw [← units, hcast]
    exact ⟨by linarith, fun heq => heven (.inr (by linarith))⟩

/-- **The shortest decimal rounds to the double** that it is searched for. -/
theorem nearest_shortest (hne : v.magnitude ≠ 0) :
    Nearest ((shortest v.significand v.exponent v.isNarrowBelow).value * unitsOfOne)
      v.magnitude.toNat := by
  have hne : v.magnitude.toNat ≠ 0 := fun h => hne (UInt64.toNat_inj.mp h)
  exact nearest_of_contains hne
    (contains_shortest (significand_pos hne) v.significand_lt v.exponent v.isNarrowBelow)

/-- The text of a finite double is its sign and the shortest decimal. -/
theorem toList_textIn (layout : DecimalLayout) (hfinite : v.isFinite = true) :
    (v.textIn layout).toList = (if v.isNegative then ['-'] else [])
      ++ (if v.magnitude = 0 then layout.zeroText
          else layout.write (shortest v.significand v.exponent v.isNarrowBelow)).toList := by
  rw [textIn, if_neg (Bool.eq_false_iff.mp (isNaN_of_isFinite hfinite)), hfinite]
  cases v.isNegative with
  | true => exact String.toList_append
  | false => rfl

end Double

/-- **A text rounds to a finite double**: it is a numeral with the sign of the double, and the double is
nearest to its magnitude. -/
def Numeral.RoundsTo (text : List Char) (v : Double) : Prop :=
  v.isFinite = true ∧ ∃ whole fraction, Positional text v.isNegative whole fraction
    ∧ Double.Nearest (magnitude whole fraction * Double.unitsOfOne) v.magnitude.toNat

/-- **A text rounds to one double**, the sign of zero included. -/
theorem Numeral.RoundsTo.unique {text : List Char} {v w : Double} (hv : RoundsTo text v)
    (hw : RoundsTo text w) : v = w := by
  obtain ⟨-, whole, fraction, htext, hnearest⟩ := hv
  obtain ⟨-, whole', fraction', htext', hnearest'⟩ := hw
  obtain ⟨hsign, rfl, rfl⟩ := htext.unique htext'
  exact Double.eq_of_isNegative_of_magnitude hsign (UInt64.toNat_inj.mp (hnearest.unique hnearest'))

/-- **The plain text of a finite double rounds to it.** -/
theorem Double.roundsTo_plainText {v : Double} (hfinite : v.isFinite = true) :
    Numeral.RoundsTo (Scalar.plainText v).toList v := by
  -- the text without its sign
  obtain ⟨whole, fraction, h, hnearest⟩ : ∃ whole fraction,
      Numeral.Positional (if v.magnitude = 0 then DecimalLayout.plain.zeroText
        else DecimalLayout.plain.write (Decimal.shortest v.significand v.exponent v.isNarrowBelow)).toList
        false whole fraction
      ∧ Nearest (Numeral.magnitude whole fraction * unitsOfOne) v.magnitude.toNat := by
    split
    · rename_i hzero
      refine ⟨['0'], [], ⟨rfl, by simp, by simp, by simp⟩, ?_⟩
      have hmagnitude : Numeral.magnitude ['0'] [] = 0 := by
        rw [Numeral.magnitude, show Numeral.value (['0'] ++ []) = 0 from rfl, Nat.cast_zero, zero_div]
      rw [hmagnitude, zero_mul, hzero]
      exact nearest_zero
    · rename_i hne
      obtain ⟨whole, fraction, htext, -, hvalue⟩ := DecimalLayout.plain.exists_positional_digits
        (Decimal.shortest v.significand v.exponent v.isNarrowBelow)
      exact ⟨whole, fraction, htext, hvalue ▸ nearest_shortest hne⟩
  refine ⟨hfinite, whole, fraction, ⟨?_, h.whole_ne_nil, h.whole_digits, h.fraction_digits⟩, hnearest⟩
  exact (toList_textIn .plain hfinite).trans (congrArg _ h.text_eq)

end RelationalLP
