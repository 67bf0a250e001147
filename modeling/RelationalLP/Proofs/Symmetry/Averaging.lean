import Mathlib
import RelationalLP.Proofs.Linear.Feasibility
import RelationalLP.Proofs.Symmetry.ClassNumbers
import RelationalLP.Symmetry.Lifting

/-! # Averaging over an equitable partition

A partition is equitable when rows of a class look the same to the columns class by class, and
columns of a class look the same to the rows. A point that is constant on the classes then satisfies
all rows of a class or none. Main statement: replacing the coordinates of a feasible point by their
averages over the classes keeps it feasible and keeps its objective. -/

namespace RelationalLP

namespace Partition

/-- The class of a row. -/
def rowClass (p : Partition) (i : ℕ) : ℕ := p.rowClasses.getD i 0

/-- The class of a column. -/
def colClass (p : Partition) (j : ℕ) : ℕ := p.colClasses.getD j 0

/-- The number of columns of a class. -/
def classSize (p : Partition) (k : ℕ) : ℕ :=
  ((Finset.range p.colClasses.length).filter fun j => p.colClass j = k).card

/-- The mean of the coordinates of a class. -/
def classMean (p : Partition) (x : List ℚ) (k : ℕ) : ℚ :=
  (∑ j ∈ Finset.range p.colClasses.length with p.colClass j = k, x.getD j 0) / p.classSize k

/-- The point of the class means. -/
def classAverages (p : Partition) (x : List ℚ) : List ℚ :=
  (List.range p.colClassCount).map (p.classMean x)

/-- The point that has the value of its class in each coordinate. -/
def spread (p : Partition) (y : List ℚ) : List ℚ := p.colClasses.map (y.getD · 0)

@[simp] theorem length_spread (p : Partition) (y : List ℚ) :
    (p.spread y).length = p.colClasses.length := by
  simp [spread]

theorem getD_spread (p : Partition) (y : List ℚ) {j : ℕ} (h : j < p.colClasses.length) :
    (p.spread y).getD j 0 = y.getD (p.colClass j) 0 := by
  simp [spread, colClass, List.getD_eq_getElem?_getD, List.getElem?_eq_getElem h]

/-- **Averaging keeps sums**: against weights that are constant on the classes, the class means sum
up like the coordinates themselves. -/
theorem sum_mul_classMean (p : Partition) (x : List ℚ) (w : ℕ → ℚ)
    (hw : ∀ j < p.colClasses.length, ∀ k < p.colClasses.length,
      p.colClass j = p.colClass k → w j = w k) :
    ∑ j ∈ Finset.range p.colClasses.length, w j * p.classMean x (p.colClass j)
      = ∑ j ∈ Finset.range p.colClasses.length, w j * x.getD j 0 := by
  set s := Finset.range p.colClasses.length with hs
  have hpos : ∀ k ∈ s, (p.classSize (p.colClass k) : ℚ) ≠ 0 := by
    intro k hk
    rw [Nat.cast_ne_zero, classSize]
    exact Finset.card_ne_zero_of_mem (Finset.mem_filter.mpr ⟨hk, rfl⟩)
  calc ∑ j ∈ s, w j * p.classMean x (p.colClass j)
      = ∑ j ∈ s, ∑ k ∈ s, if p.colClass k = p.colClass j
          then w j * x.getD k 0 / p.classSize (p.colClass j) else 0 := by
        refine Finset.sum_congr rfl fun j _ => ?_
        rw [← Finset.sum_filter, ← Finset.sum_div, ← Finset.mul_sum, classMean, mul_div_assoc]
    _ = ∑ k ∈ s, ∑ j ∈ s, if p.colClass j = p.colClass k
          then w k * x.getD k 0 / p.classSize (p.colClass k) else 0 := by
        -- both orders of summation count the pairs of one class
        rw [Finset.sum_comm]
        refine Finset.sum_congr rfl fun k hk => Finset.sum_congr rfl fun j hj => ?_
        by_cases hjk : p.colClass k = p.colClass j
        · rw [if_pos hjk, if_pos hjk.symm, hjk,
            hw j (Finset.mem_range.mp hj) k (Finset.mem_range.mp hk) hjk.symm]
        · rw [if_neg hjk, if_neg (Ne.symm hjk)]
    _ = ∑ k ∈ s, w k * x.getD k 0 := by
        refine Finset.sum_congr rfl fun k hk => ?_
        rw [← Finset.sum_filter, Finset.sum_const, nsmul_eq_mul]
        exact mul_div_cancel₀ _ (hpos k hk)

end Partition

namespace LinearProgram

/-- **An equitable partition of a program**: right sides, objective and the sums of cells by classes
depend only on the classes, and no class has inequalities and equations. -/
structure Equitable (lp : LinearProgram ℚ) (p : Partition) : Prop where
  /-- Every row has a class. -/
  row_count : p.rowClasses.length = lp.rowCount
  /-- Every column has a class. -/
  col_count : p.colClasses.length = lp.columnCount
  /-- An inequality and an equation are never in one class. -/
  unmixed : ∀ i < lp.inequalityCount, ∀ k < lp.rowCount, lp.inequalityCount ≤ k →
    p.rowClass i ≠ p.rowClass k
  /-- Rows of a class have equal right sides. -/
  rightSide_eq : ∀ i < lp.rowCount, ∀ k < lp.rowCount, p.rowClass i = p.rowClass k →
    lp.rightSide i = lp.rightSide k
  /-- Columns of a class have equal coefficients in the objective. -/
  objective_eq : ∀ j < lp.columnCount, ∀ k < lp.columnCount, p.colClass j = p.colClass k →
    lp.c.getD j 0 = lp.c.getD k 0
  /-- Rows of a class have equal sums over each class of columns. -/
  row_sums : ∀ i < lp.rowCount, ∀ k < lp.rowCount, p.rowClass i = p.rowClass k → ∀ J,
    ∑ j ∈ Finset.range lp.columnCount with p.colClass j = J, lp.cell i j
      = ∑ j ∈ Finset.range lp.columnCount with p.colClass j = J, lp.cell k j
  /-- Columns of a class have equal sums over each class of rows. -/
  col_sums : ∀ j < lp.columnCount, ∀ k < lp.columnCount, p.colClass j = p.colClass k → ∀ I,
    ∑ i ∈ Finset.range lp.rowCount with p.rowClass i = I, lp.cell i j
      = ∑ i ∈ Finset.range lp.rowCount with p.rowClass i = I, lp.cell i k

variable {lp : LinearProgram ℚ} {p : Partition}

/-! ### Points that are constant on classes -/

/-- At a point that is constant on classes the left side of a row is a sum over the classes. -/
theorem rowValue_spread (hcols : p.colClasses.length = lp.columnCount) (y : List ℚ) {N : ℕ}
    (hN : ∀ j < lp.columnCount, p.colClass j < N) (i : ℕ) :
    lp.rowValue (p.spread y) i
      = ∑ J ∈ Finset.range N,
          (∑ j ∈ Finset.range lp.columnCount with p.colClass j = J, lp.cell i j) * y.getD J 0 := by
  rw [rowValue]
  rw [← Finset.sum_fiberwise_of_maps_to
    (fun j hj => Finset.mem_range.mpr (hN j (Finset.mem_range.mp hj)))]
  refine Finset.sum_congr rfl fun J _ => ?_
  rw [Finset.sum_mul]
  refine Finset.sum_congr rfl fun j hj => ?_
  obtain ⟨hj, hJ⟩ := Finset.mem_filter.mp hj
  rw [Partition.getD_spread p y (by rw [hcols]; exact Finset.mem_range.mp hj), hJ]

/-- Rows of one class have equal left sides at a point that is constant on classes. -/
theorem Equitable.rowValue_spread_eq (he : lp.Equitable p) (y : List ℚ) {i k : ℕ}
    (hi : i < lp.rowCount) (hk : k < lp.rowCount) (hik : p.rowClass i = p.rowClass k) :
    lp.rowValue (p.spread y) i = lp.rowValue (p.spread y) k := by
  have hN : ∀ j < lp.columnCount,
      p.colClass j < (Finset.range lp.columnCount).sup p.colClass + 1 := fun j hj =>
    Nat.lt_succ_of_le (Finset.le_sup (Finset.mem_range.mpr hj))
  rw [rowValue_spread he.col_count y hN, rowValue_spread he.col_count y hN]
  exact Finset.sum_congr rfl fun J _ => by rw [he.row_sums i hi k hk hik J]

/-- Two rows of one class are both inequalities or both equations. -/
theorem Equitable.lt_iff_lt (he : lp.Equitable p) {i k : ℕ} (hi : i < lp.rowCount)
    (hk : k < lp.rowCount) (hik : p.rowClass i = p.rowClass k) :
    i < lp.inequalityCount ↔ k < lp.inequalityCount := by
  constructor
  · intro h
    exact not_le.mp fun hle => he.unmixed i h k hk hle hik
  · intro h
    exact not_le.mp fun hle => he.unmixed k h i hi hle hik.symm

/-- A row of a class holds at a point that is constant on classes when another row of it does. -/
theorem Equitable.rowHolds_of_rowClass_eq (he : lp.Equitable p) (y : List ℚ) {i k : ℕ}
    (hi : i < lp.rowCount) (hk : k < lp.rowCount) (hik : p.rowClass i = p.rowClass k)
    (h : lp.RowHolds (p.spread y) k) : lp.RowHolds (p.spread y) i := by
  rw [RowHolds, he.rowValue_spread_eq y hi hk hik, he.rightSide_eq i hi k hk hik]
  simpa only [RowHolds, he.lt_iff_lt hi hk hik] using h

/-! ### Averaging -/

/-- The mean of a class is the coordinate of the averaged point at each column of the class. -/
theorem Equitable.getD_spread_classAverages (he : lp.Equitable p)
    (hN : ∀ j < lp.columnCount, p.colClass j < p.colClassCount) (x : List ℚ) {j : ℕ}
    (hj : j < lp.columnCount) :
    (p.spread (p.classAverages x)).getD j 0 = p.classMean x (p.colClass j) := by
  rw [Partition.getD_spread _ _ (by rw [he.col_count]; exact hj), Partition.classAverages]
  simp [List.getD_eq_getElem?_getD, List.getElem?_range (hN j hj)]

/-- A row at the averaged point has the mean of the left sides of its class: both sum up to the same
over the class. -/
theorem Equitable.sum_rowValue_classAverages (he : lp.Equitable p)
    (hN : ∀ j < lp.columnCount, p.colClass j < p.colClassCount) (x : List ℚ) (I : ℕ) :
    ∑ i ∈ Finset.range lp.rowCount with p.rowClass i = I,
        lp.rowValue (p.spread (p.classAverages x)) i
      = ∑ i ∈ Finset.range lp.rowCount with p.rowClass i = I, lp.rowValue x i := by
  -- the sum over a class of rows weighs the columns of a class alike
  have hswap : ∀ z : List ℚ, ∑ i ∈ Finset.range lp.rowCount with p.rowClass i = I, lp.rowValue z i
      = ∑ j ∈ Finset.range lp.columnCount,
          (∑ i ∈ Finset.range lp.rowCount with p.rowClass i = I, lp.cell i j) * z.getD j 0 := by
    intro z
    simp only [rowValue]
    rw [Finset.sum_comm]
    exact Finset.sum_congr rfl fun j _ => by rw [Finset.sum_mul]
  rw [hswap, hswap]
  have hmean := p.sum_mul_classMean x
    (fun j => ∑ i ∈ Finset.range lp.rowCount with p.rowClass i = I, lp.cell i j)
    (by rw [he.col_count]; exact fun j hj k hk hjk => he.col_sums j hj k hk hjk I)
  rw [he.col_count] at hmean
  rw [← hmean]
  refine Finset.sum_congr rfl fun j hj => ?_
  rw [he.getD_spread_classAverages hN x (Finset.mem_range.mp hj)]

/-- **Averages of feasible points are feasible.** -/
theorem Equitable.feasible_spread_classAverages (he : lp.Equitable p) (hlp : lp.WellFormed)
    (hN : ∀ j < lp.columnCount, p.colClass j < p.colClassCount) {x : List ℚ}
    (hx : lp.Feasible x) : lp.Feasible (p.spread (p.classAverages x)) := by
  rw [feasible_iff_rowHolds hlp] at hx ⊢
  refine ⟨(Partition.length_spread _ _).trans he.col_count, fun i hi => ?_⟩
  set members := (Finset.range lp.rowCount).filter fun k => p.rowClass k = p.rowClass i with hm
  have hmem : ∀ k ∈ members, k < lp.rowCount ∧ p.rowClass i = p.rowClass k := by
    intro k hk
    obtain ⟨hk, hki⟩ := Finset.mem_filter.mp hk
    exact ⟨Finset.mem_range.mp hk, hki.symm⟩
  have hpos : (0 : ℚ) < members.card := by
    have hi' : i ∈ members := Finset.mem_filter.mpr ⟨Finset.mem_range.mpr hi, rfl⟩
    exact_mod_cast Finset.card_pos.mpr ⟨i, hi'⟩
  -- all rows of the class have the left side and the right side of row `i`
  have hleft : members.card * lp.rowValue (p.spread (p.classAverages x)) i
      = ∑ k ∈ members, lp.rowValue x k := by
    rw [← he.sum_rowValue_classAverages hN x (p.rowClass i), ← nsmul_eq_mul, ← Finset.sum_const]
    refine Finset.sum_congr rfl fun k hk => ?_
    exact he.rowValue_spread_eq _ hi (hmem k hk).1 (hmem k hk).2
  have hright : members.card * lp.rightSide i = ∑ k ∈ members, lp.rightSide k := by
    rw [← nsmul_eq_mul, ← Finset.sum_const]
    exact Finset.sum_congr rfl fun k hk => he.rightSide_eq i hi k (hmem k hk).1 (hmem k hk).2
  rw [RowHolds]
  split
  · rename_i hineq
    have hle : ∑ k ∈ members, lp.rowValue x k ≤ ∑ k ∈ members, lp.rightSide k := by
      refine Finset.sum_le_sum fun k hk => ?_
      have hrow := hx.2 k (hmem k hk).1
      rwa [RowHolds, if_pos ((he.lt_iff_lt hi (hmem k hk).1 (hmem k hk).2).mp hineq)] at hrow
    rw [← hleft, ← hright] at hle
    exact le_of_mul_le_mul_left hle hpos
  · rename_i heq
    have hsum : ∑ k ∈ members, lp.rowValue x k = ∑ k ∈ members, lp.rightSide k := by
      refine Finset.sum_congr rfl fun k hk => ?_
      have hrow := hx.2 k (hmem k hk).1
      rwa [RowHolds, if_neg fun h => heq ((he.lt_iff_lt hi (hmem k hk).1 (hmem k hk).2).mpr h)]
        at hrow
    rw [← hleft, ← hright] at hsum
    exact mul_left_cancel₀ hpos.ne' hsum

/-- Averaging does not change the objective. -/
theorem Equitable.objective_spread_classAverages (he : lp.Equitable p)
    (hN : ∀ j < lp.columnCount, p.colClass j < p.colClassCount) (x : List ℚ) :
    lp.objective (p.spread (p.classAverages x)) = lp.objective x := by
  have hmean := p.sum_mul_classMean x (fun j => lp.c.getD j 0)
    (by rw [he.col_count]; exact he.objective_eq)
  rw [he.col_count] at hmean
  rw [objective_eq_sum, objective_eq_sum, ← hmean]
  refine Finset.sum_congr rfl fun j hj => ?_
  rw [he.getD_spread_classAverages hN x (Finset.mem_range.mp hj)]

end LinearProgram

end RelationalLP
