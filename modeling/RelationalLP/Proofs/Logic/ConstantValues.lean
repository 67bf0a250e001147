import Mathlib
import RelationalLP.Logic.Constant
import RelationalLP.Proofs.Number.RoundedIntegers

/-! # Values of constants

When two constants over the doubles have the same value, kind by kind. An integer has the value of a real
when the double nearest to it has. -/

namespace RelationalLP

namespace Constant

variable {n m : ℤ} {v w : Double} {s t : String}

theorem sameValue_self {K : Type} [Scalar K] (c : Constant K) : c.sameValue c = true := by
  rw [sameValue, decide_eq_true rfl, Bool.true_or]

theorem sameValue_integer_iff :
    (integer n : Constant Double).sameValue (integer m) = true ↔ n = m := by
  rw [sameValue, Bool.or_eq_true, decide_eq_true_eq, beq_iff_eq, compareValue, Option.some.injEq,
    Std.LawfulEqCmp.compare_eq_iff_eq, integer.injEq, or_self]

theorem sameValue_text_iff {K : Type} [Scalar K] :
    (text s : Constant K).sameValue (text t) = true ↔ s = t := by
  rw [sameValue, Bool.or_eq_true, decide_eq_true_eq, beq_iff_eq, compareValue, Option.some.injEq,
    Std.LawfulEqCmp.compare_eq_iff_eq, text.injEq, or_self]

theorem sameValue_real_iff :
    (real v : Constant Double).sameValue (real w) = true ↔ v = w ∨ v.numEq w = true := by
  rw [sameValue, Bool.or_eq_true, decide_eq_true_eq, beq_iff_eq, real.injEq]
  exact or_congr_right Double.compareValue_eq_eq_iff

/-- **An integer meets a real** through the double nearest to it. -/
theorem sameValue_integer_real_iff :
    (integer n : Constant Double).sameValue (real v) = true ↔ (Double.ofInt n).numEq v = true := by
  rw [sameValue, Bool.or_eq_true, decide_eq_true_eq, beq_iff_eq]
  exact (or_iff_right nofun).trans Double.compareValue_eq_eq_iff

theorem sameValue_real_integer_iff :
    (real v : Constant Double).sameValue (integer n) = true ↔ v.numEq (Double.ofInt n) = true := by
  rw [sameValue, Bool.or_eq_true, decide_eq_true_eq, beq_iff_eq]
  exact (or_iff_right nofun).trans Double.compareValue_eq_eq_iff

/-- A text has the value of no number. -/
theorem sameValue_text_eq_false {K : Type} [Scalar K] {c : Constant K} (hc : c.isNumeric = true) :
    (text s).sameValue c = false ∧ c.sameValue (text s) = false := by
  cases c with
  | integer n => exact ⟨rfl, rfl⟩
  | real v =>
    rw [sameValue, sameValue, decide_eq_false nofun, decide_eq_false nofun]
    exact ⟨rfl, rfl⟩
  | text t => cases hc

/-- Only the text itself has the value of a text. -/
@[simp] theorem sameValue_text_right_iff {K : Type} [Scalar K] {c : Constant K} :
    c.sameValue (text s) = true ↔ c = text s := by
  cases c with
  | text t => rw [sameValue_text_iff, text.injEq]
  | integer n => rw [(sameValue_text_eq_false rfl).2]; exact iff_of_false nofun nofun
  | real v => rw [(sameValue_text_eq_false rfl).2]; exact iff_of_false nofun nofun

@[simp] theorem sameValue_text_left_iff {K : Type} [Scalar K] {c : Constant K} :
    (text s).sameValue c = true ↔ c = text s := by
  cases c with
  | text t => rw [sameValue_text_iff, text.injEq, eq_comm]
  | integer n => rw [(sameValue_text_eq_false rfl).1]; exact iff_of_false nofun nofun
  | real v => rw [(sameValue_text_eq_false rfl).1]; exact iff_of_false nofun nofun

theorem sameValue_symm {a b : Constant Double} (h : a.sameValue b = true) :
    b.sameValue a = true := by
  match a, b with
  | integer _, integer _ => exact sameValue_integer_iff.mpr (sameValue_integer_iff.mp h).symm
  | text _, text _ => exact sameValue_text_iff.mpr (sameValue_text_iff.mp h).symm
  | real _, real _ =>
    exact sameValue_real_iff.mpr ((sameValue_real_iff.mp h).imp Eq.symm Double.numEq_symm)
  | integer _, real _ =>
    exact sameValue_real_integer_iff.mpr (Double.numEq_symm (sameValue_integer_real_iff.mp h))
  | real _, integer _ =>
    exact sameValue_integer_real_iff.mpr (Double.numEq_symm (sameValue_real_integer_iff.mp h))

/-- Different constants of one value are numbers with equal doubles. -/
theorem numEq_of_sameValue {a b : Constant Double} (h : a.sameValue b = true) (hne : a ≠ b) :
    ∃ x y, a.number? = some x ∧ b.number? = some y ∧ x.numEq y = true := by
  match a, b with
  | integer _, integer _ => exact absurd (congrArg integer (sameValue_integer_iff.mp h)) hne
  | text _, text _ => exact absurd (congrArg text (sameValue_text_iff.mp h)) hne
  | real _, real _ =>
    exact ⟨_, _, rfl, rfl, (sameValue_real_iff.mp h).resolve_left fun heq => hne (congrArg real heq)⟩
  | integer _, real _ => exact ⟨_, _, rfl, rfl, sameValue_integer_real_iff.mp h⟩
  | real _, integer _ => exact ⟨_, _, rfl, rfl, sameValue_real_integer_iff.mp h⟩

/-- Numbers with equal doubles have one value, unless both are integers. -/
theorem sameValue_of_numEq {a b : Constant Double} {x y : Double} (ha : a.number? = some x)
    (hb : b.number? = some y) (h : x.numEq y = true) :
    a.sameValue b = true ∨ ∃ n m, a = integer n ∧ b = integer m := by
  match a, b with
  | integer n, integer m => exact .inr ⟨n, m, rfl, rfl⟩
  | real _, real _ =>
    cases ha
    cases hb
    exact .inl (sameValue_real_iff.mpr (.inr h))
  | integer _, real _ =>
    cases ha
    cases hb
    exact .inl (sameValue_integer_real_iff.mpr h)
  | real _, integer _ =>
    cases ha
    cases hb
    exact .inl (sameValue_real_integer_iff.mpr h)

end Constant

end RelationalLP
