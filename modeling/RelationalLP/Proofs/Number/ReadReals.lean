import Mathlib
import RelationalLP.Proofs.Number.WrittenReals

/-! # Reading reals

The full text of a double is read back. A numeral is digits with a fraction or an exponent, and stands for
the double nearest to its value: a number of units is cut off after 53 bits, and what is cut off decides
between this pattern and the next one. -/

namespace RelationalLP

/-! ### The nearest double -/

namespace Double

/-- The pattern of the greatest magnitude of at most `n` units. -/
def patternBelow (n : ℕ) : ℕ := (n.log2 - 52) * 2 ^ 52 + n / 2 ^ (n.log2 - 52)

/-- **The pattern nearest to a number of units**, of two that are as near the even one. -/
def nearestPattern (u : ℚ) : ℕ :=
  let p := patternBelow ⌊u⌋₊
  let middle : ℚ := (unitsOf p + unitsOf (p + 1)) / 2
  if u < middle then p else if middle < u then p + 1 else p + p % 2

/-- The double with the given sign and the given pattern of its magnitude. -/
def ofPattern (negative : Bool) (p : ℕ) : Double := ⟨.ofNat ((if negative then 2 ^ 63 else 0) + p)⟩

theorem ofPattern_magnitude (v : Double) : ofPattern v.isNegative v.magnitude.toNat = v := by
  rw [ofPattern, ← v.toNat_bits, UInt64.ofNat_toNat]

/-- **Cutting off after 53 bits** leaves the greatest magnitude below a number of units. -/
theorem unitsOf_patternBelow (n : ℕ) :
    unitsOf (patternBelow n) ≤ n ∧ n < unitsOf (patternBelow n + 1) := by
  rw [unitsOf_succ]
  rcases Nat.lt_or_ge n (2 ^ 52) with hsmall | hlarge
  · -- small numbers of units are patterns themselves
    have hlog : n.log2 - 52 = 0 := by
      rcases Nat.eq_zero_or_pos n with rfl | hpos
      · rfl
      · have := (Nat.log2_lt hpos.ne').mpr hsmall
        omega
    have hpattern : patternBelow n = n := by
      rw [patternBelow, hlog, Nat.zero_mul, Nat.zero_add, pow_zero, Nat.div_one]
    rw [hpattern, unitsOf, Nat.div_eq_of_lt hsmall, if_pos rfl]
    exact ⟨le_rfl, Nat.lt_succ_self n⟩
  · have hne : n ≠ 0 := by omega
    have hlog : 52 ≤ n.log2 := (Nat.le_log2 hne).mpr hlarge
    obtain ⟨e, he⟩ := Nat.exists_eq_add_of_le hlog
    have hpos : 0 < 2 ^ e := Nat.two_pow_pos e
    have hlow : 2 ^ 52 ≤ n / 2 ^ e := by
      rw [Nat.le_div_iff_mul_le hpos, ← pow_add, ← he]
      exact Nat.log2_self_le hne
    have hhigh : n / 2 ^ e < 2 ^ 53 := by
      rw [Nat.div_lt_iff_lt_mul hpos, ← pow_add, show 53 + e = n.log2 + 1 by omega]
      exact Nat.lt_log2_self
    have hpattern : patternBelow n = e * 2 ^ 52 + n / 2 ^ e := by
      rw [patternBelow, he, Nat.add_sub_cancel_left]
    have hdiv : patternBelow n / 2 ^ 52 = e + 1 := by omega
    have hmod : 2 ^ 52 + patternBelow n % 2 ^ 52 = n / 2 ^ e := by omega
    rw [unitsOf, hdiv, hmod, if_neg (Nat.succ_ne_zero e), Nat.add_sub_cancel]
    refine ⟨Nat.div_mul_le_self n (2 ^ e), ?_⟩
    rw [← Nat.succ_mul]
    exact Nat.lt_mul_of_div_lt (Nat.lt_succ_self _) hpos

/-- **The nearest pattern is found.** -/
theorem nearest_nearestPattern {u : ℚ} (hu : 0 ≤ u) : Nearest u (nearestPattern u) := by
  obtain ⟨hle, hlt⟩ := unitsOf_patternBelow ⌊u⌋₊
  rw [nearestPattern]
  generalize patternBelow ⌊u⌋₊ = p at hle hlt
  have hlow : (unitsOf p : ℚ) ≤ u := (Nat.cast_le.mpr hle).trans (Nat.floor_le hu)
  have hhigh : u < unitsOf (p + 1) :=
    (Nat.lt_floor_add_one u).trans_le (by exact_mod_cast hlt)
  have hmono : ∀ q, (unitsOf q : ℚ) < unitsOf (q + 1) := fun q =>
    Nat.cast_lt.mpr (unitsOf_strictMono q.lt_succ_self)
  -- the number is above all patterns before the first of the two, and below all behind the second
  have hfirst : 2 * u ≤ unitsOf p + unitsOf (p + 1) →
      (2 * u = unitsOf p + unitsOf (p + 1) → p % 2 = 0) → Nearest u p := by
    intro hmiddle heven
    refine nearest_of_between (fun q hq => ?_) ⟨hmiddle, heven⟩
    have hbelow := hmono q
    rw [hq] at hbelow
    exact ⟨by linarith, fun htie => by linarith⟩
  have hsecond : unitsOf p + unitsOf (p + 1) ≤ 2 * u →
      (unitsOf p + unitsOf (p + 1) = 2 * u → (p + 1) % 2 = 0) → Nearest u (p + 1) := by
    intro hmiddle heven
    have habove := hmono (p + 1)
    refine nearest_of_between (fun q hq => ?_) ⟨by linarith, fun htie => by linarith⟩
    obtain rfl := Nat.succ.inj hq
    exact ⟨hmiddle, heven⟩
  split
  · exact hfirst (by linarith) fun htie => by linarith
  · split
    · exact hsecond (by linarith) fun htie => by linarith
    · rcases Nat.mod_two_eq_zero_or_one p with heven | hodd
      · rw [heven]
        exact hfirst (by linarith) fun _ => heven
      · rw [hodd]
        exact hsecond (by linarith) fun _ => by omega

end Double

/-! ### Numerals in full -/

namespace Numeral

/-- Reads an integer: digits behind a sign. -/
def integer? (cs : List Char) : Option ℤ :=
  let (negative, digits) := sign cs
  if !digits.isEmpty && digits.all Char.isDigit then
    some (if negative then -(value digits : ℤ) else value digits)
  else none

/-- Splits off a fraction: the digits behind a point, if there is one. -/
def splitFraction : List Char → List Char × List Char
  | '.' :: cs => (cs.takeWhile Char.isDigit, cs.dropWhile Char.isDigit)
  | cs => ([], cs)

/-- Reads digits with a fraction and an exponent as their value. -/
def unsigned? (cs : List Char) : Option ℚ :=
  let whole := cs.takeWhile Char.isDigit
  let (fraction, tail) := splitFraction (cs.dropWhile Char.isDigit)
  if whole.isEmpty then none else (exponent? tail).map fun e => magnitude whole fraction * 10 ^ e

/-- **Reads a real**: infinity, or a numeral as the double nearest to it. -/
def real? (cs : List Char) : Option Double :=
  let (negative, body) := sign cs
  if body = "inf".toList then some (.ofPattern negative Double.infinityBits.toNat)
  else (unsigned? body).bind fun x =>
    let p := Double.nearestPattern (x * Double.unitsOfOne)
    if p < Double.infinityBits.toNat then some (.ofPattern negative p) else none

/-- Reads a number; digits alone are an integer. -/
def number? (cs : List Char) : Option (Constant Double) :=
  match integer? cs with
  | some n => some (.integer n)
  | none => (real? cs).map .real

/-- **The numerals of reals**: digits with a fraction, an exponent, or both. -/
inductive Spells : List Char → ℚ → Prop where
  /-- Digits around a point. -/
  | pointed {cs whole fraction : List Char} (h : Positional cs false whole fraction)
      (hne : fraction ≠ []) : Spells cs (magnitude whole fraction)
  /-- Digits with a power of ten. -/
  | scientific {cs whole fraction : List Char} (h : Positional cs false whole fraction) (e : ℤ) :
      Spells (cs ++ 'e' :: (toString e).toList) (magnitude whole fraction * 10 ^ e)

theorem isDigit_of_mem_toDigits {n : ℕ} {d : Char} (hd : d ∈ Nat.toDigits 10 n) : d.isDigit = true :=
  Nat.isDigit_of_mem_toDigits (by decide) (by decide) hd

/-- A written integer is read. -/
theorem integer?_toString (n : ℤ) : integer? (toString n).toList = some n := by
  obtain ⟨negative, m, hn, htext⟩ := Token.exists_toList_toString n
  obtain ⟨d, ds, hds⟩ := List.exists_cons_of_ne_nil (Nat.toDigits_ne_nil (n := m) (b := 10))
  have hdigits : ∀ c ∈ d :: ds, c.isDigit = true := fun c hc => isDigit_of_mem_toDigits (hds ▸ hc)
  have hvalue : value (d :: ds) = m := hds ▸ Token.value_toDigits m
  rw [htext, hds, integer?, sign_signed (hdigits d List.mem_cons_self)]
  simp only [List.all_eq_true.mpr hdigits, hvalue, ← hn]
  rfl

/-- The characters of an integer. -/
theorem of_mem_toString {n : ℤ} {c : Char} (hc : c ∈ (toString n).toList) :
    c.isDigit = true ∨ c = '-' := by
  obtain ⟨negative, m, -, htext⟩ := Token.exists_toList_toString n
  rw [htext] at hc
  rcases List.mem_append.mp hc with hc | hc
  · cases negative with
    | true => exact .inr (List.mem_singleton.mp hc)
    | false => exact absurd hc List.not_mem_nil
  · exact .inl (isDigit_of_mem_toDigits hc)

/-- A written exponent is read. -/
theorem exponent?_toString (e : ℤ) : exponent? ('e' :: (toString e).toList) = some e :=
  integer?_toString e

/-- A written fraction is split off in front of an exponent. -/
theorem splitFraction_pointed {fraction : List Char} (hdigits : ∀ d ∈ fraction, d.isDigit = true)
    {tail : List Char} (htail : ∀ c ∈ tail.head?, c = 'e') :
    splitFraction (pointed fraction ++ tail) = (fraction, tail) := by
  rw [pointed]
  split
  · rename_i hnil
    rw [hnil, List.nil_append]
    rcases tail with _ | ⟨c, cs⟩
    · rfl
    · rw [htail c rfl]
      rfl
  · have hstop : ∀ c ∈ tail.head?, c.isDigit = false := by
      intro c hc
      rw [htail c hc]
      rfl
    obtain ⟨htake, hdrop⟩ := Token.takeWhile_dropWhile_append hdigits hstop
    rw [List.cons_append, splitFraction, htake, hdrop]

/-- The digits of a numeral end with the numeral, or before its exponent. -/
theorem Positional.unsigned? {cs whole fraction : List Char} (h : Positional cs false whole fraction)
    {tail : List Char} (htail : ∀ c ∈ tail.head?, c = 'e') : Numeral.unsigned? (cs ++ tail)
      = (exponent? tail).map fun e => magnitude whole fraction * 10 ^ e := by
  have htext : cs ++ tail = whole ++ (pointed fraction ++ tail) := by
    rw [h.text_eq]
    simp
  have hstop : ∀ c ∈ (pointed fraction ++ tail).head?, c.isDigit = false := by
    intro c hc
    rw [pointed] at hc
    split at hc
    · rw [htail c hc]
      rfl
    · rw [← Option.some.inj hc]
      rfl
  obtain ⟨htake, hdrop⟩ := Token.takeWhile_dropWhile_append h.whole_digits hstop
  rw [Numeral.unsigned?, htext, htake, hdrop, splitFraction_pointed h.fraction_digits htail]
  simp [h.whole_ne_nil]

theorem magnitude_nonneg (whole fraction : List Char) : 0 ≤ magnitude whole fraction := by
  rw [magnitude]
  positivity

theorem Spells.nonneg {cs : List Char} {x : ℚ} (h : Spells cs x) : 0 ≤ x := by
  cases h with
  | pointed => exact magnitude_nonneg _ _
  | scientific _ e => exact mul_nonneg (magnitude_nonneg _ _) (by positivity)

/-- **A numeral is read as its value.** -/
theorem Spells.unsigned? {cs : List Char} {x : ℚ} (h : Spells cs x) : Numeral.unsigned? cs = some x := by
  cases h with
  | pointed h _ =>
    have hend : ∀ c ∈ ([] : List Char).head?, c = 'e' := nofun
    have hread := h.unsigned? hend
    rwa [List.append_nil, exponent?, Option.map_some, zpow_zero, mul_one] at hread
  | scientific h e =>
    rw [h.unsigned? (by simp), exponent?_toString]
    rfl

/-- A numeral starts with a digit, and not all of its characters are digits. -/
theorem Spells.exists_cons {cs : List Char} {x : ℚ} (h : Spells cs x) :
    ∃ d ds, cs = d :: ds ∧ d.isDigit = true ∧ cs.all Char.isDigit = false := by
  have hcases : ∀ {text whole fraction : List Char} (tail), Positional text false whole fraction →
      (fraction ≠ [] ∨ 'e' ∈ tail) →
      ∃ d ds, text ++ tail = d :: ds ∧ d.isDigit = true ∧ (text ++ tail).all Char.isDigit = false := by
    intro text whole fraction tail h htail
    obtain ⟨d, ds, hwhole⟩ := List.exists_cons_of_ne_nil h.whole_ne_nil
    refine ⟨d, ds ++ Numeral.pointed fraction ++ tail, ?_, h.whole_digits d (hwhole ▸ List.mem_cons_self), ?_⟩
    · rw [h.text_eq, hwhole]
      simp
    · rw [List.all_eq_false]
      rcases htail with hne | hmem
      · exact ⟨'.', by simp [h.text_eq, Numeral.pointed, hne], by decide⟩
      · exact ⟨'e', List.mem_append_right _ hmem, by decide⟩
  cases h with
  | pointed h hne =>
    have hcons := hcases [] h (.inl hne)
    rwa [List.append_nil] at hcons
  | scientific h e => exact hcases _ h (.inr List.mem_cons_self)

/-- The characters of a numeral. -/
theorem Spells.of_mem {cs : List Char} {x : ℚ} (h : Spells cs x) {c : Char} (hc : c ∈ cs) :
    c.isDigit = true ∨ c ∈ ['-', '.', 'e'] := by
  have hpositional : ∀ {text whole fraction : List Char}, Positional text false whole fraction →
      c ∈ text → c.isDigit = true ∨ c ∈ ['-', '.', 'e'] := by
    intro text whole fraction h hc
    rw [h.text_eq, Numeral.pointed] at hc
    rcases List.mem_append.mp hc with hc | hc
    · exact absurd hc List.not_mem_nil
    · rcases List.mem_append.mp hc with hc | hc
      · exact .inl (h.whole_digits c hc)
      · split at hc
        · exact absurd hc List.not_mem_nil
        · rcases List.mem_cons.mp hc with rfl | hc
          · exact .inr (by simp)
          · exact .inl (h.fraction_digits c hc)
  cases h with
  | pointed h _ => exact hpositional h hc
  | scientific h e =>
    rcases List.mem_append.mp hc with hc | hc
    · exact hpositional h hc
    · rcases List.mem_cons.mp hc with rfl | hc
      · exact .inr (by simp)
      · exact (of_mem_toString hc).imp_right fun heq => by simp [heq]

end Numeral

/-! ### The full text of a double -/

namespace DecimalLayout

open Numeral

/-- Digits with an exponent are a numeral of their value. -/
theorem spells_scientific (d : Decimal) :
    Spells (scientific (Nat.toDigits 10 d.digits) (d.point - 1)).toList d.value := by
  have hvalue := Token.value_toDigits d.digits
  have hdigits : ∀ c ∈ Nat.toDigits 10 d.digits, c.isDigit = true := fun c => isDigit_of_mem_toDigits
  have hcount : Decimal.digitCount d.digits = (Nat.toDigits 10 d.digits).length := rfl
  obtain ⟨c, cs, hcs⟩ := List.exists_cons_of_ne_nil (Nat.toDigits_ne_nil (n := d.digits) (b := 10))
  rw [hcs] at hvalue hdigits hcount ⊢
  obtain ⟨hc, hcs⟩ := List.forall_mem_cons.mp hdigits
  have hten : (10 : ℚ) ≠ 0 := by norm_num
  have hpositional : Positional (c :: pointed cs) false [c] cs :=
    ⟨rfl, List.cons_ne_nil _ _, by simpa using hc, hcs⟩
  have hmagnitude : magnitude [c] cs * 10 ^ (d.point - 1) = d.value := by
    have hexponent : d.point - Decimal.digitCount d.digits = (d.point - 1) - (cs.length : ℕ) := by
      rw [hcount, List.length_cons]
      push_cast
      ring
    rw [magnitude, List.singleton_append, hvalue, Decimal.value, hexponent, zpow_sub₀ hten _ (cs.length : ℤ),
      zpow_natCast]
    ring
  have hspells := Spells.scientific hpositional (d.point - 1)
  rw [hmagnitude] at hspells
  rcases cs with _ | ⟨c', cs⟩
  · simpa [scientific, pointed] using hspells
  · simpa [scientific, pointed] using hspells

/-- A decimal in full is a numeral of its value. -/
theorem spells_write (d : Decimal) : Spells (full.write d).toList d.value := by
  rw [write]
  split
  · exact spells_scientific d
  · obtain ⟨whole, fraction, h, hkeep, hvalue⟩ := full.exists_positional_digits d
    exact hvalue ▸ .pointed h (hkeep rfl)

end DecimalLayout

namespace Double

open Numeral

/-- **The text of a finite double** is its sign and a numeral that it is nearest to. -/
theorem exists_spells_text {v : Double} (hfinite : v.isFinite = true) : ∃ cs x,
    (Scalar.text v).toList = (if v.isNegative then ['-'] else []) ++ cs ∧ Spells cs x
      ∧ Nearest (x * unitsOfOne) v.magnitude.toNat := by
  refine ⟨_, if v.magnitude = 0 then 0
    else (Decimal.shortest v.significand v.exponent v.isNarrowBelow).value,
    toList_textIn .full hfinite, ?_⟩
  split
  · rename_i hzero
    have hspells : Spells "0.0".toList (Numeral.magnitude ['0'] ['0']) :=
      .pointed ⟨rfl, by simp, by simp, by simp⟩ (by simp)
    have hmagnitude : Numeral.magnitude ['0'] ['0'] = 0 := by
      rw [Numeral.magnitude, show Numeral.value (['0'] ++ ['0']) = 0 from rfl, Nat.cast_zero, zero_div]
    rw [hzero, zero_mul]
    exact ⟨hmagnitude ▸ hspells, nearest_zero⟩
  · rename_i hne
    exact ⟨DecimalLayout.spells_write _, nearest_shortest hne⟩

theorem text_of_not_isFinite {v : Double} (hnumber : v.isNaN = false) (hfinite : v.isFinite = false) :
    Scalar.text v = if v.isNegative then "-inf" else "inf" := by
  show textIn .full v = _
  rw [textIn, hnumber, hfinite]
  cases v.isNegative <;> rfl

/-- The characters of the text of a double. -/
theorem of_mem_text {v : Double} (hnumber : v.isNaN = false) {c : Char}
    (hc : c ∈ (Scalar.text v).toList) : c.isDigit = true ∨ c ∈ ['-', '.', 'e', 'i', 'n', 'f'] := by
  cases hfinite : v.isFinite with
  | true =>
    obtain ⟨cs, x, htext, hspells, -⟩ := exists_spells_text hfinite
    rw [htext] at hc
    rcases List.mem_append.mp hc with hc | hc
    · refine .inr ?_
      split at hc
      · exact List.mem_singleton.mp hc ▸ List.mem_cons_self
      · exact absurd hc List.not_mem_nil
    · exact (hspells.of_mem hc).imp_right fun h => List.mem_append_left ['i', 'n', 'f'] h
  | false =>
    rw [text_of_not_isFinite hnumber hfinite] at hc
    have hnegative : "-inf".toList ⊆ ['-', '.', 'e', 'i', 'n', 'f'] := by decide
    have hpositive : "inf".toList ⊆ ['-', '.', 'e', 'i', 'n', 'f'] := by decide
    refine .inr ?_
    split at hc
    · exact hnegative hc
    · exact hpositive hc

/-- **The text of a double is read back**, infinity and the zeros included, and it is no integer. -/
theorem number?_text {v : Double} (hnumber : v.isNaN = false) :
    number? (Scalar.text v).toList = some (.real v) := by
  cases hfinite : v.isFinite with
  | true =>
    obtain ⟨cs, x, htext, hspells, hnearest⟩ := exists_spells_text hfinite
    obtain ⟨d, ds, rfl, hd, hdigits⟩ := hspells.exists_cons
    have hsign := sign_signed hd v.isNegative ds
    have hinteger : integer? (Scalar.text v).toList = none := by
      rw [htext, integer?, hsign]
      simp only [hdigits, Bool.and_false]
      rfl
    have hname : d :: ds ≠ "inf".toList := by
      rintro heq
      rw [(List.cons.inj heq).1] at hd
      cases hd
    have hpattern : nearestPattern (x * unitsOfOne) = v.magnitude.toNat :=
      (nearest_nearestPattern (mul_nonneg hspells.nonneg (Nat.cast_nonneg _))).unique hnearest
    have hlt : v.magnitude.toNat < infinityBits.toNat := by
      rw [isFinite, decide_eq_true_eq] at hfinite
      exact UInt64.lt_iff_toNat_lt.mp hfinite
    rw [number?, hinteger, htext, real?, hsign]
    simp only [if_neg hname, hspells.unsigned?, Option.bind_some, hpattern, if_pos hlt, ofPattern_magnitude]
    rfl
  | false =>
    have hmagnitude : v.magnitude = infinityBits := by
      rw [isNaN, decide_eq_false_iff_not, UInt64.not_lt] at hnumber
      rw [isFinite, decide_eq_false_iff_not, UInt64.not_lt] at hfinite
      exact UInt64.le_antisymm hnumber hfinite
    have hv : ofPattern v.isNegative infinityBits.toNat = v := hmagnitude ▸ ofPattern_magnitude v
    rw [text_of_not_isFinite hnumber hfinite]
    cases hnegative : v.isNegative with
    | true => exact congrArg (fun w => some (Constant.real w)) (hnegative ▸ hv)
    | false => exact congrArg (fun w => some (Constant.real w)) (hnegative ▸ hv)

example : number? "-12e-1".toList = some (.real ⟨0xbff3333333333333⟩) := by decide +kernel

end Double

end RelationalLP
