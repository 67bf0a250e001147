import Mathlib

/-! # Infinite sums and products

Sums and products of extended natural numbers: a sum is finite when every term is, and a product is
infinite when a factor is and none is zero. -/

namespace RelationalLP

/-- A sum is finite when every term is. -/
theorem sum_ne_top_iff {xs : List ℕ∞} : xs.sum ≠ ⊤ ↔ ∀ x ∈ xs, x ≠ ⊤ := by
  induction xs with
  | nil => exact iff_of_true ENat.zero_ne_top nofun
  | cons x xs ih =>
    rw [List.sum_cons, List.forall_mem_cons, ← ih, ne_eq, ENat.add_eq_top, not_or]

/-- A product is finite when every factor is. -/
theorem prod_ne_top {xs : List ℕ∞} (h : ∀ x ∈ xs, x ≠ ⊤) : xs.prod ≠ ⊤ := by
  induction xs with
  | nil => exact ENat.one_ne_top
  | cons x xs ih =>
    obtain ⟨hx, hxs⟩ := List.forall_mem_cons.mp h
    rw [List.prod_cons]
    exact WithTop.mul_ne_top hx (ih hxs)

/-- A finite product without zeros has finite factors. -/
theorem ne_top_of_prod_ne_top {xs : List ℕ∞} (h : xs.prod ≠ ⊤) (hzero : 0 ∉ xs) :
    ∀ x ∈ xs, x ≠ ⊤ := by
  induction xs with
  | nil => exact nofun
  | cons x xs ih =>
    rw [List.mem_cons, not_or] at hzero
    rw [List.prod_cons] at h
    have hrest : xs.prod ≠ 0 := fun hz => hzero.2 (List.prod_eq_zero_iff.mp hz)
    refine List.forall_mem_cons.mpr ⟨fun hx => h ?_, ih (fun hx => h ?_) hzero.2⟩
    · rw [hx, ENat.top_mul hrest]
    · rw [hx, ENat.mul_top (Ne.symm hzero.1)]

end RelationalLP
