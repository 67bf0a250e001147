import Mathlib
import RelationalLP.Proofs.Number.PlainNumerals

/-! # Written reals

A finite real that is written without an exponent has digits on both sides of a point, behind its sign. Such
a text is read as the real of these digits. -/

namespace RelationalLP

/-- **Digits around a point**, behind a sign. -/
structure Numeral.Pointed (text : List Char) (negative : Bool) (whole fraction : List Char) : Prop where
  /-- The parts in order. -/
  text_eq : text = (if negative then ['-'] else []) ++ (whole ++ '.' :: fraction)
  /-- There are digits before the point. -/
  whole_ne_nil : whole ≠ []
  /-- There are digits behind the point. -/
  fraction_ne_nil : fraction ≠ []
  /-- They are digits. -/
  whole_digits : ∀ d ∈ whole, d.isDigit = true
  /-- They are digits. -/
  fraction_digits : ∀ d ∈ fraction, d.isDigit = true

namespace DecimalLayout

/-- Positional notation puts digits around a point when whole numbers keep a fraction. -/
theorem exists_pointed_positional {layout : DecimalLayout} (hkeep : layout.keepFraction = true)
    {digits : List Char} (hdigits : ∀ d ∈ digits, d.isDigit = true) (hne : digits ≠ []) (point : ℤ) :
    ∃ whole fraction, Numeral.Pointed (layout.positional digits point).toList false whole fraction := by
  obtain ⟨whole, fraction, h, hfraction, -⟩ := layout.exists_positional hdigits hne point
  refine ⟨whole, fraction, ?_, h.whole_ne_nil, hfraction hkeep, h.whole_digits, h.fraction_digits⟩
  rw [h.text_eq, Numeral.pointed, if_neg (hfraction hkeep)]

end DecimalLayout

namespace Double

variable {v : Double}

/-- **A finite real without an exponent** is written with digits around a point. -/
theorem exists_pointed_text (hfinite : v.isFinite = true) (hplain : 'e' ∉ (Scalar.text v).toList) :
    ∃ negative whole fraction, Numeral.Pointed (Scalar.text v).toList negative whole fraction := by
  have htext : (Scalar.text v).toList = _ := toList_textIn .full hfinite
  rw [htext] at hplain ⊢
  -- the text without its sign
  generalize hbody : (if v.magnitude = 0 then DecimalLayout.full.zeroText
    else DecimalLayout.full.write (Decimal.shortest v.significand v.exponent v.isNarrowBelow)) = body
    at hplain ⊢
  have hplain : 'e' ∉ body.toList := fun h => hplain (List.mem_append_right _ h)
  obtain ⟨whole, fraction, h⟩ : ∃ whole fraction, Numeral.Pointed body.toList false whole fraction := by
    subst hbody
    split
    · exact ⟨['0'], ['0'], rfl, by simp, by simp, by simp, by simp⟩
    · rename_i hne
      rw [if_neg hne, DecimalLayout.write] at hplain
      rw [DecimalLayout.write]
      split
      · rename_i hexponent
        rw [if_pos hexponent] at hplain
        unfold DecimalLayout.scientific at hplain
        simp at hplain
      · exact DecimalLayout.exists_pointed_positional rfl
          (fun d hd => Nat.isDigit_of_mem_toDigits (by decide) (by decide) hd) Nat.toDigits_ne_nil _
  exact ⟨v.isNegative, whole, fraction, congrArg _ h.text_eq, h.whole_ne_nil, h.fraction_ne_nil,
    h.whole_digits, h.fraction_digits⟩

end Double

namespace Numeral

/-- A text that starts with a digit has no sign. -/
theorem sign_of_isDigit {c : Char} (hc : c.isDigit = true) (cs : List Char) :
    sign (c :: cs) = (false, c :: cs) := by
  unfold sign
  split
  · rename_i heq
    cases (List.cons.inj heq).1
    cases hc
  · rename_i heq
    cases (List.cons.inj heq).1
    cases hc
  · rfl

/-- The sign before a digit is split off. -/
theorem sign_signed {c : Char} (hc : c.isDigit = true) (negative : Bool) (cs : List Char) :
    sign ((if negative then ['-'] else []) ++ c :: cs) = (negative, c :: cs) := by
  cases negative with
  | true => rfl
  | false => exact sign_of_isDigit hc cs

theorem toLower_of_isDigit {c : Char} (hc : c.isDigit = true) : c.toLower = c := by
  rw [Char.toLower, dif_neg]
  rintro ⟨hlow, -⟩
  rw [Char.isDigit, Bool.and_eq_true, decide_eq_true_eq, decide_eq_true_eq] at hc
  exact absurd (UInt32.le_trans hlow hc.2) (by decide)

/-- A text that starts with a digit is no name. -/
theorem named?_of_isDigit {c : Char} (hc : c.isDigit = true) (cs : List Char) :
    named? (String.ofList ((c :: cs).map Char.toLower)) = none := by
  have hne : ∀ {name : String} {d : Char} {ds : List Char}, name.toList = d :: ds →
      d.isDigit = false → String.ofList ((c :: cs).map Char.toLower) ≠ name := by
    rintro name d ds hname hd rfl
    rw [String.toList_ofList, List.map_cons, toLower_of_isDigit hc] at hname
    rw [← (List.cons.inj hname).1, hc] at hd
    cases hd
  have hinf : "inf".toList = ['i', 'n', 'f'] := rfl
  have hinfinity : "infinity".toList = ['i', 'n', 'f', 'i', 'n', 'i', 't', 'y'] := rfl
  have hnan : "nan".toList = ['n', 'a', 'n'] := rfl
  rw [named?, decide_eq_false (hne hinf rfl), decide_eq_false (hne hinfinity rfl)]
  exact if_neg (hne hnan rfl)

/-- **Digits around a point are read** as the real that they are the digits of. -/
theorem Pointed.double?_eq {text : String} {negative : Bool} {whole fraction : List Char}
    (h : Pointed text.toList negative whole fraction) :
    double? text = some (decimal negative whole fraction) := by
  obtain ⟨c, digits, rfl⟩ := List.exists_cons_of_ne_nil h.whole_ne_nil
  have hc := h.whole_digits c List.mem_cons_self
  have hsign : sign text.toList = (negative, c :: digits ++ '.' :: fraction) :=
    h.text_eq ▸ sign_signed hc negative _
  have hpoint : ¬ Char.isDigit '.' = true := by decide
  have hnamed := named?_of_isDigit hc (digits ++ '.' :: fraction)
  -- the point ends the digits on its left
  have htake : (c :: digits ++ '.' :: fraction).takeWhile Char.isDigit = c :: digits := by
    rw [List.takeWhile_append_of_pos h.whole_digits, List.takeWhile_cons_of_neg hpoint, List.append_nil]
  have hdrop : (c :: digits ++ '.' :: fraction).dropWhile Char.isDigit = '.' :: fraction := by
    rw [List.dropWhile_append_of_pos h.whole_digits, List.dropWhile_cons_of_neg hpoint]
  have htake' : fraction.takeWhile Char.isDigit = fraction :=
    List.takeWhile_eq_self_iff.mpr h.fraction_digits
  have hdrop' : fraction.dropWhile Char.isDigit = [] :=
    List.dropWhile_eq_nil_iff.mpr h.fraction_digits
  rw [List.cons_append] at hsign htake hdrop
  rw [double?, hsign]
  simp only [hnamed, htake, hdrop, htake', hdrop']
  rw [if_neg (by simp), exponent?, Option.map_some, zero_sub]
  rfl

end Numeral

end RelationalLP
