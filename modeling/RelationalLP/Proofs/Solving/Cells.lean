import Mathlib
import RelationalLP.Proofs.Number.Exact
import RelationalLP.Solving.Simplex

/-! # Cells of a tableau

A tableau is read cell by cell. Each row stands for an equation, and the cost row for the objective;
the residual of a row at a vector is its left side minus its last cell. Eliminating with a row
subtracts a multiple of its cells and of its residual, so pivots and pricing keep what the rows and
the costs say about every solution. -/

namespace RelationalLP

namespace Tableau

/-- The cell of a row and a column; the column after the last variable holds the right sides. -/
def cell (t : Tableau ℚ) (i j : ℕ) : ℚ := (t.rows.getD i []).getD j 0

/-- The right side of a row. -/
def rightSide (t : Tableau ℚ) (i : ℕ) : ℚ := t.cell i t.rhsColumn

/-- The basic column of a row. -/
def basicColumn (t : Tableau ℚ) (i : ℕ) : ℕ := t.basis.getD i 0

/-- The reduced cost of a column. -/
def reducedCost (t : Tableau ℚ) (j : ℕ) : ℚ := t.cost.getD j 0

/-- The number of rows. -/
def height (t : Tableau ℚ) : ℕ := t.rows.length

/-- The left side of a row of `n` variables at a vector, minus its last cell. -/
def residual (n : ℕ) (cells : List ℚ) (z : ℕ → ℚ) : ℚ :=
  ∑ j ∈ Finset.range n, cells.getD j 0 * z j - cells.getD n 0

/-- A vector satisfies every row. -/
def Solves (t : Tableau ℚ) (z : ℕ → ℚ) : Prop :=
  ∀ i < t.height, residual t.rhsColumn (t.rows.getD i []) z = 0

/-- **The sizes of a tableau**: a basic column for each row, and a cell for each column in each row
and in the costs. -/
structure Sized (t : Tableau ℚ) : Prop where
  /-- Every row has a basic column. -/
  basis_length : t.basis.length = t.height
  /-- Every row has a cell for each column and a right side. -/
  row_length : ∀ i < t.height, (t.rows.getD i []).length = t.width
  /-- The costs have a cell for each column and one for the objective. -/
  cost_length : t.cost.length = t.width

theorem width_eq (t : Tableau ℚ) : t.width = t.rhsColumn + 1 := rfl

theorem rhsColumn_eq (t : Tableau ℚ) : t.rhsColumn = t.structural + t.height := rfl

/-! ### Elimination -/

@[simp] theorem length_eliminate {f : ℚ} {p cells : List ℚ} (h : p.length = cells.length) :
    (eliminate f p cells).length = cells.length := by
  rw [eliminate]
  split
  · rfl
  · rw [List.length_zipWith, h, min_self]

/-- An elimination subtracts a multiple of the other row from each cell. -/
theorem getD_eliminate {f : ℚ} {p cells : List ℚ} (h : p.length = cells.length) (j : ℕ) :
    (eliminate f p cells).getD j 0 = cells.getD j 0 - f * p.getD j 0 := by
  rw [eliminate]
  split
  · rename_i hf
    have hf0 : f = 0 := by simpa using hf
    rw [hf0, zero_mul, sub_zero]
  · by_cases hj : j < cells.length
    · rw [List.getD_eq_getElem _ _ (by rw [List.length_zipWith, h, min_self]; exact hj),
        List.getElem_zipWith, List.getD_eq_getElem _ _ hj, List.getD_eq_getElem _ _ (by omega)]
    · rw [List.getD_eq_default _ _ (by rw [List.length_zipWith]; omega),
        List.getD_eq_default _ _ (by omega), List.getD_eq_default _ _ (by omega), mul_zero,
        sub_zero]

/-- An elimination subtracts a multiple of the other residual. -/
theorem residual_eliminate {f : ℚ} {p cells : List ℚ} (h : p.length = cells.length) (n : ℕ)
    (z : ℕ → ℚ) :
    residual n (eliminate f p cells) z = residual n cells z - f * residual n p z := by
  simp only [residual, getD_eliminate h]
  rw [mul_sub, Finset.mul_sum]
  have hsplit : ∑ j ∈ Finset.range n, (cells.getD j 0 - f * p.getD j 0) * z j
      = ∑ j ∈ Finset.range n, cells.getD j 0 * z j
        - ∑ j ∈ Finset.range n, f * (p.getD j 0 * z j) := by
    rw [← Finset.sum_sub_distrib]
    exact Finset.sum_congr rfl fun j _ => by ring
  rw [hsplit]
  ring

theorem getD_map_div (p : ℚ) (cells : List ℚ) (j : ℕ) :
    (cells.map (· / p)).getD j 0 = cells.getD j 0 / p := by
  by_cases hj : j < cells.length
  · rw [List.getD_eq_getElem _ _ (by simpa using hj), List.getElem_map, List.getD_eq_getElem _ _ hj]
  · rw [List.getD_eq_default _ _ (by simpa using hj), List.getD_eq_default _ _ (by omega),
      zero_div]

/-- Dividing a row divides its residual. -/
theorem residual_map_div (p : ℚ) (cells : List ℚ) (n : ℕ) (z : ℕ → ℚ) :
    residual n (cells.map (· / p)) z = residual n cells z / p := by
  simp only [residual, getD_map_div]
  rw [sub_div, Finset.sum_div]
  congr 1
  exact Finset.sum_congr rfl fun j _ => by ring

/-! ### Pivots -/

section Pivot

variable (t : Tableau ℚ) (row col : ℕ)

@[simp] theorem height_pivot : (t.pivot row col).height = t.height := by simp [height, pivot]

@[simp] theorem structural_pivot : (t.pivot row col).structural = t.structural := rfl

@[simp] theorem rhsColumn_pivot : (t.pivot row col).rhsColumn = t.rhsColumn := by
  simp [rhsColumn, pivot]

@[simp] theorem width_pivot : (t.pivot row col).width = t.width := by simp [width, pivot]

/-- The row of a pivot divided by the pivot. -/
def pivotRow : List ℚ := (t.rows.getD row []).map (· / t.cell row col)

/-- The rows after a pivot: the pivot row divided, the others eliminated. -/
theorem getD_rows_pivot {i : ℕ} (hi : i < t.height) :
    (t.pivot row col).rows.getD i []
      = if i = row then t.pivotRow row col
        else eliminate (t.cell i col) (t.pivotRow row col) (t.rows.getD i []) := by
  rw [List.getD_eq_getElem _ _ (by simpa [pivot, height] using hi)]
  simp only [pivot, List.getElem_mapIdx, pivotRow, cell]
  rw [List.getD_eq_getElem _ _ hi]
  rfl

/-- The basic columns after a pivot. -/
theorem basicColumn_pivot {i : ℕ} (hrow : row < t.basis.length) :
    (t.pivot row col).basicColumn i = if i = row then col else t.basicColumn i := by
  simp only [basicColumn, pivot]
  by_cases h : i = row
  · subst h
    simp [List.getD_eq_getElem?_getD, hrow]
  · rw [if_neg h, List.getD_eq_getElem?_getD, List.getElem?_set_ne (Ne.symm h),
      List.getD_eq_getElem?_getD]

end Pivot

variable {t : Tableau ℚ} {row col : ℕ}

theorem Sized.length_pivotRow (hs : t.Sized) (hrow : row < t.height) :
    (t.pivotRow row col).length = t.width := by
  rw [pivotRow, List.length_map, hs.row_length row hrow]

/-- A pivot keeps the sizes. -/
theorem Sized.pivot (hs : t.Sized) (hrow : row < t.height) : (t.pivot row col).Sized where
  basis_length := by
    rw [height_pivot, ← hs.basis_length]
    simp [Tableau.pivot]
  row_length := by
    intro i hi
    rw [height_pivot] at hi
    rw [getD_rows_pivot t row col hi, width_pivot]
    split
    · exact hs.length_pivotRow hrow
    · rw [length_eliminate ((hs.length_pivotRow hrow).trans (hs.row_length i hi).symm),
        hs.row_length i hi]
  cost_length := by
    rw [width_pivot, ← hs.cost_length]
    exact length_eliminate ((hs.length_pivotRow hrow).trans hs.cost_length.symm)

/-- **Cells after a pivot.** -/
theorem Sized.cell_pivot (hs : t.Sized) (hrow : row < t.height) {i : ℕ} (hi : i < t.height)
    (j : ℕ) :
    (t.pivot row col).cell i j
      = if i = row then t.cell row j / t.cell row col
        else t.cell i j - t.cell i col * (t.cell row j / t.cell row col) := by
  rw [cell, getD_rows_pivot t row col hi]
  split
  · rw [pivotRow, getD_map_div]
    rfl
  · rw [getD_eliminate ((hs.length_pivotRow hrow).trans (hs.row_length i hi).symm), pivotRow,
      getD_map_div]
    rfl

/-- Reduced costs after a pivot. -/
theorem Sized.reducedCost_pivot (hs : t.Sized) (hrow : row < t.height) (j : ℕ) :
    (t.pivot row col).reducedCost j
      = t.reducedCost j - t.reducedCost col * (t.cell row j / t.cell row col) := by
  show (eliminate (t.cost.getD col 0) (t.pivotRow row col) t.cost).getD j 0 = _
  rw [getD_eliminate ((hs.length_pivotRow hrow).trans hs.cost_length.symm), pivotRow, getD_map_div]
  rfl

/-- **A pivot keeps the solutions.** -/
theorem Sized.solves_pivot_iff (hs : t.Sized) (hrow : row < t.height)
    (hne : t.cell row col ≠ 0) (z : ℕ → ℚ) : (t.pivot row col).Solves z ↔ t.Solves z := by
  -- in each row a pivot leaves the residual up to a multiple of that of the pivot row
  have hres : ∀ i < t.height, residual t.rhsColumn ((t.pivot row col).rows.getD i []) z
      = if i = row then residual t.rhsColumn (t.rows.getD row []) z / t.cell row col
        else residual t.rhsColumn (t.rows.getD i []) z
          - t.cell i col * (residual t.rhsColumn (t.rows.getD row []) z / t.cell row col) := by
    intro i hi
    rw [getD_rows_pivot t row col hi]
    split
    · rw [pivotRow, residual_map_div]
    · rw [residual_eliminate ((hs.length_pivotRow hrow).trans (hs.row_length i hi).symm), pivotRow,
        residual_map_div]
  simp only [Solves, height_pivot, rhsColumn_pivot]
  constructor
  · intro h
    have hpiv : residual t.rhsColumn (t.rows.getD row []) z = 0 := by
      have hr := h row hrow
      rw [hres row hrow, if_pos rfl, div_eq_zero_iff] at hr
      exact hr.resolve_right hne
    intro i hi
    by_cases hir : i = row
    · rw [hir, hpiv]
    · have hr := h i hi
      rwa [hres i hi, if_neg hir, hpiv, zero_div, mul_zero, sub_zero] at hr
  · intro h i hi
    rw [hres i hi, h row hrow, h i hi, zero_div, mul_zero, sub_zero, ite_self]

/-- A pivot keeps the residual of the costs at every solution. -/
theorem Sized.residual_cost_pivot (hs : t.Sized) (hrow : row < t.height) {z : ℕ → ℚ}
    (hz : t.Solves z) :
    residual t.rhsColumn (t.pivot row col).cost z = residual t.rhsColumn t.cost z := by
  show residual t.rhsColumn (eliminate (t.cost.getD col 0) (t.pivotRow row col) t.cost) z = _
  rw [residual_eliminate ((hs.length_pivotRow hrow).trans hs.cost_length.symm), pivotRow,
    residual_map_div, hz row hrow, zero_div, mul_zero, sub_zero]

end Tableau

end RelationalLP
