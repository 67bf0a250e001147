import Mathlib
import RelationalLP.Number.Rational

/-! # Exact arithmetic

On the rationals the operations of `Scalar` are those of the ordered field: sums from the left are
sums, the magnitude is the absolute value, and a number has the value zero exactly when it is
zero. -/

namespace RelationalLP.Scalar

/-- **Sums that start from zero**: a number added to zero stays the same, unless it has the value zero,
and then so has the sum. The formats of the machine do this as exact arithmetic does; of two zeros only
the sign may change. -/
class StartsFromZero (K : Type) [Scalar K] : Prop where
  /-- A number other than zero stays the same. -/
  zero_add_of_ne {v : K} : isZero v = false → 0 + v = v
  /-- A zero stays a zero. -/
  isZero_zero_add {v : K} : isZero v = true → isZero (0 + v) = true

instance : StartsFromZero ℚ where
  zero_add_of_ne _ := zero_add _
  isZero_zero_add h := by rwa [zero_add]

@[simp] theorem isZero_rat (x : ℚ) : isZero x = decide (x = 0) := rfl

@[simp] theorem numEq_rat (x y : ℚ) : numEq x y = decide (x = y) := rfl

@[simp] theorem isFinite_rat (x : ℚ) : isFinite x = true := rfl

/-- `Scalar.ofInt n = n`: every integer is a rational. -/
theorem ofInt_rat (n : ℤ) : (Scalar.ofInt n : ℚ) = n := Rat.ofInt_eq_cast n

/-- `Scalar.abs x = |x|`. -/
theorem abs_rat (x : ℚ) : Scalar.abs x = |x| := by
  show (if x < 0 then -x else x) = |x|
  split
  · rename_i h
    rw [abs_of_neg h]
  · rename_i h
    rw [abs_of_nonneg (not_lt.mp h)]

/-- `Scalar.sum xs = xs.sum`: the negated zero from which a sum starts is zero. -/
theorem sum_rat (xs : List ℚ) : Scalar.sum xs = xs.sum := by
  rw [Scalar.sum, List.sum_eq_foldl]
  simp

/-- Two rationals always compare, and they do so by their order. -/
theorem compareValue_rat (x y : ℚ) :
    Scalar.compareValue x y
      = some (if x < y then .lt else if y < x then .gt else .eq) := by
  rw [Scalar.compareValue]
  split
  · rfl
  · rename_i hxy
    split
    · rfl
    · rename_i hyx
      have heq : x = y := le_antisymm (not_lt.mp hyx) (not_lt.mp hxy)
      rw [if_pos (by simp [heq])]

end RelationalLP.Scalar
