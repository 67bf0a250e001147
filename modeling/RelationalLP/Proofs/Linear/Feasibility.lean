import Mathlib
import RelationalLP.Linear.Program
import RelationalLP.Proofs.Linear.Matrix
import RelationalLP.Solving.Solver

/-! # Feasible points and optima in exact arithmetic

A point is feasible when the products with the matrices satisfy the right sides with tolerance zero.
For a well-formed program the rows of both matrices are read as one list of rows, inequalities
first: `cell i j` is an entry, `rightSide i` a right side, and a point is feasible when each
inequality holds and each equation is an equality. -/

namespace RelationalLP

namespace LinearProgram

/-- The point satisfies every row exactly. -/
def Feasible (lp : LinearProgram ℚ) (x : List ℚ) : Prop :=
  x.length = lp.columnCount ∧ lp.satisfied 0 (lp.g.mulVec x) (lp.a.mulVec x) = true

instance (lp : LinearProgram ℚ) (x : List ℚ) : Decidable (lp.Feasible x) :=
  inferInstanceAs (Decidable (_ ∧ _))

/-- No point is feasible. -/
def Infeasible (lp : LinearProgram ℚ) : Prop := ∀ x, ¬ lp.Feasible x

/-- Some point is feasible and the objective of feasible points has no lower bound. -/
def Unbounded (lp : LinearProgram ℚ) : Prop :=
  (∃ x, lp.Feasible x) ∧ ∀ bound, ∃ x, lp.Feasible x ∧ lp.objective x < bound

/-- A value is attained by a feasible point and no feasible point is below it. -/
def IsOptimum (lp : LinearProgram ℚ) (v : ℚ) : Prop :=
  (∃ x, lp.Feasible x ∧ lp.objective x = v) ∧ ∀ x, lp.Feasible x → v ≤ lp.objective x

/-- **A program with consistent dimensions**: both matrices are well-formed, have a column for each
coefficient of the objective and a row for each right side. -/
structure WellFormed (lp : LinearProgram ℚ) : Prop where
  /-- The matrix of the inequalities is well-formed. -/
  g_wellFormed : lp.g.WellFormed
  /-- The matrix of the equations is well-formed. -/
  a_wellFormed : lp.a.WellFormed
  /-- The inequalities have a cell for each column. -/
  g_cols : lp.g.cols = lp.columnCount
  /-- The equations have a cell for each column. -/
  a_cols : lp.a.cols = lp.columnCount
  /-- Each inequality has a right side. -/
  g_rows : lp.g.rows = lp.inequalityCount
  /-- Each equation has a right side. -/
  a_rows : lp.a.rows = lp.equationCount

/-- Sizes agree where the checks find no other size. -/
theorem sizes_of_validate {K : Type} [Scalar K] {lp : LinearProgram K}
    (h : ∀ what expected found, lp.validate ≠ .error (.dimension what expected found)) :
    lp.g.cols = lp.columnCount ∧ lp.a.cols = lp.columnCount ∧ lp.g.rows = lp.inequalityCount
      ∧ lp.a.rows = lp.equationCount := by
  rw [validate] at h
  split at h
  · exact absurd rfl (h _ _ _)
  · rename_i hsize
    have hall := List.find?_eq_none.mp hsize
    simp only [sizeChecks, List.forall_mem_cons, ne_eq, decide_not, Bool.not_eq_true',
      Bool.not_eq_false, decide_eq_true_eq] at hall
    obtain ⟨hgc, hac, hgr, har, -⟩ := hall
    exact ⟨hgc.symm, hac.symm, hgr, har⟩

/-- A program that passes the checks has consistent dimensions. -/
theorem wellFormed_of_validate {lp : LinearProgram ℚ} (hg : lp.g.WellFormed)
    (ha : lp.a.WellFormed) (h : lp.validate = .ok ()) : lp.WellFormed := by
  obtain ⟨hgc, hac, hgr, har⟩ := sizes_of_validate fun _ _ _ hsize => nomatch h.symm.trans hsize
  exact ⟨hg, ha, hgc, hac, hgr, har⟩

/-! ### Rows -/

/-- The cell of a row and a column; equations follow the inequalities. -/
def cell (lp : LinearProgram ℚ) (i j : ℕ) : ℚ :=
  if i < lp.inequalityCount then lp.g.get i j else lp.a.get (i - lp.inequalityCount) j

/-- The right side of a row; equations follow the inequalities. -/
def rightSide (lp : LinearProgram ℚ) (i : ℕ) : ℚ := (lp.h ++ lp.b).getD i 0

/-- The number of rows. -/
def rowCount (lp : LinearProgram ℚ) : ℕ := lp.inequalityCount + lp.equationCount

/-- The left side of a row at a point. -/
def rowValue (lp : LinearProgram ℚ) (x : List ℚ) (i : ℕ) : ℚ :=
  ∑ j ∈ Finset.range lp.columnCount, lp.cell i j * x.getD j 0

/-- A row holds at a point: an inequality up to its right side, an equation exactly. -/
def RowHolds (lp : LinearProgram ℚ) (x : List ℚ) (i : ℕ) : Prop :=
  if i < lp.inequalityCount then lp.rowValue x i ≤ lp.rightSide i
  else lp.rowValue x i = lp.rightSide i

/-- A row holds at a point up to a tolerance: an inequality may exceed its right side by it, an equation
may miss its right side by it. -/
def RowHoldsWithin (lp : LinearProgram ℚ) (tolerance : ℚ) (x : List ℚ) (i : ℕ) : Prop :=
  if i < lp.inequalityCount then lp.rowValue x i ≤ lp.rightSide i + tolerance
  else |lp.rowValue x i - lp.rightSide i| ≤ tolerance

theorem rowHoldsWithin_zero {lp : LinearProgram ℚ} {x : List ℚ} {i : ℕ} :
    lp.RowHoldsWithin 0 x i ↔ lp.RowHolds x i := by
  simp only [RowHoldsWithin, RowHolds, add_zero, abs_nonpos_iff, sub_eq_zero]

theorem rightSide_of_lt {lp : LinearProgram ℚ} {i : ℕ} (h : i < lp.inequalityCount) :
    lp.rightSide i = lp.h.getD i 0 := by
  rw [rightSide, List.getD_append _ _ _ _ h]

theorem rightSide_add (lp : LinearProgram ℚ) (i : ℕ) :
    lp.rightSide (lp.inequalityCount + i) = lp.b.getD i 0 := by
  rw [rightSide, inequalityCount, List.getD_append_right _ _ _ _ (Nat.le_add_right _ _),
    Nat.add_sub_cancel_left]

/-- The left side of an inequality is a cell of the product with its matrix. -/
theorem rowValue_of_lt {lp : LinearProgram ℚ} (hlp : lp.WellFormed) (x : List ℚ) {i : ℕ}
    (h : i < lp.inequalityCount) : lp.rowValue x i = lp.g.rowDot i x := by
  rw [SparseMatrix.rowDot_eq_sum hlp.g_wellFormed, hlp.g_cols, rowValue]
  exact Finset.sum_congr rfl fun j _ => by rw [cell, if_pos h]

/-- The left side of an equation is a cell of the product with its matrix. -/
theorem rowValue_add {lp : LinearProgram ℚ} (hlp : lp.WellFormed) (x : List ℚ) (i : ℕ) :
    lp.rowValue x (lp.inequalityCount + i) = lp.a.rowDot i x := by
  rw [SparseMatrix.rowDot_eq_sum hlp.a_wellFormed, hlp.a_cols, rowValue]
  refine Finset.sum_congr rfl fun j _ => ?_
  rw [cell, if_neg (by omega), Nat.add_sub_cancel_left]

/-! ### Feasibility by rows -/

/-- All pairs of two lists pass a test when the pairs at every place do. -/
theorem all_zipWith_iff (test : ℚ → ℚ → Bool) {xs ys : List ℚ} (h : xs.length = ys.length) :
    (List.zipWith test xs ys).all id = true
      ↔ ∀ i < ys.length, test (xs.getD i 0) (ys.getD i 0) = true := by
  induction xs generalizing ys with
  | nil =>
    obtain rfl : ys = [] := List.length_eq_zero_iff.mp h.symm
    simp
  | cons x xs ih =>
    cases ys with
    | nil => simp at h
    | cons y ys =>
      rw [List.length_cons, List.length_cons, Nat.add_right_cancel_iff] at h
      rw [List.zipWith_cons_cons, List.all_cons, id, Bool.and_eq_true, ih h, List.length_cons]
      constructor
      · rintro ⟨h0, hs⟩ i hi
        cases i with
        | zero => simpa using h0
        | succ i => simpa using hs i (by omega)
      · intro hs
        refine ⟨by simpa using hs 0 (by omega), fun i hi => ?_⟩
        simpa using hs (i + 1) (by omega)

/-- The comparison of the products is one of their cells. -/
theorem satisfied_iff {lp : LinearProgram ℚ} (hg : lp.g.rows = lp.inequalityCount)
    (ha : lp.a.rows = lp.equationCount) (tolerance : ℚ) (x : List ℚ) :
    lp.satisfied tolerance (lp.g.mulVec x) (lp.a.mulVec x) = true
      ↔ (∀ i < lp.inequalityCount, lp.g.rowDot i x ≤ lp.h.getD i 0 + tolerance)
        ∧ ∀ i < lp.equationCount, |lp.a.rowDot i x - lp.b.getD i 0| ≤ tolerance := by
  rw [satisfied, Bool.and_eq_true,
    all_zipWith_iff (fun l r => decide (l ≤ r + tolerance))
      ((SparseMatrix.length_mulVec _ _).trans hg),
    all_zipWith_iff (fun l r => decide (Scalar.abs (l - r) ≤ tolerance))
      ((SparseMatrix.length_mulVec _ _).trans ha)]
  refine and_congr ?_ ?_
  · refine forall₂_congr fun i hi => ?_
    rw [SparseMatrix.getD_mulVec _ _ (by rw [hg]; exact hi), decide_eq_true_eq]
  · refine forall₂_congr fun i hi => ?_
    rw [SparseMatrix.getD_mulVec _ _ (by rw [ha]; exact hi), decide_eq_true_eq, Scalar.abs_rat]

/-- **Feasibility row by row**, through the products with the matrices. -/
theorem feasible_iff {lp : LinearProgram ℚ} (hg : lp.g.rows = lp.inequalityCount)
    (ha : lp.a.rows = lp.equationCount) (x : List ℚ) :
    lp.Feasible x ↔ x.length = lp.columnCount
      ∧ (∀ i < lp.inequalityCount, lp.g.rowDot i x ≤ lp.h.getD i 0)
      ∧ (∀ i < lp.equationCount, lp.a.rowDot i x = lp.b.getD i 0) := by
  rw [Feasible, satisfied_iff hg ha]
  simp only [add_zero, abs_nonpos_iff, sub_eq_zero]

/-- The products satisfy the right sides within a tolerance when every row holds up to it. -/
theorem satisfied_iff_rowHoldsWithin {lp : LinearProgram ℚ} (hlp : lp.WellFormed) (tolerance : ℚ)
    (x : List ℚ) : lp.satisfied tolerance (lp.g.mulVec x) (lp.a.mulVec x) = true
      ↔ ∀ i < lp.rowCount, lp.RowHoldsWithin tolerance x i := by
  rw [satisfied_iff hlp.g_rows hlp.a_rows]
  constructor
  · rintro ⟨hineq, heq⟩ i hi
    rw [RowHoldsWithin]
    split
    · rename_i hlt
      rw [rowValue_of_lt hlp x hlt, rightSide_of_lt hlt]
      exact hineq i hlt
    · rename_i hge
      obtain ⟨k, rfl⟩ := Nat.exists_eq_add_of_le (not_lt.mp hge)
      rw [rowValue_add hlp, rightSide_add]
      exact heq k (by rw [rowCount] at hi; omega)
  · intro hrows
    refine ⟨fun i hi => ?_, fun i hi => ?_⟩
    · have hrow := hrows i (by rw [rowCount]; omega)
      rwa [RowHoldsWithin, if_pos hi, rowValue_of_lt hlp x hi, rightSide_of_lt hi] at hrow
    · have hrow := hrows (lp.inequalityCount + i) (by rw [rowCount]; omega)
      rwa [RowHoldsWithin, if_neg (by omega), rowValue_add hlp, rightSide_add] at hrow

/-- Feasibility of a well-formed program: every row holds. -/
theorem feasible_iff_rowHolds {lp : LinearProgram ℚ} (hlp : lp.WellFormed) (x : List ℚ) :
    lp.Feasible x ↔ x.length = lp.columnCount ∧ ∀ i < lp.rowCount, lp.RowHolds x i := by
  rw [Feasible, satisfied_iff_rowHoldsWithin hlp]
  simp only [rowHoldsWithin_zero]

/-- **The check of a point decides whether every row holds up to the tolerance**: there is a right side
for each row, so the products are compared whole. -/
theorem isFeasible?_iff_rowHoldsWithin {lp : LinearProgram ℚ} (hlp : lp.WellFormed) (x : List ℚ)
    (tolerance : ℚ) : lp.isFeasible? x tolerance = some true
      ↔ x.length = lp.columnCount ∧ ∀ i < lp.rowCount, lp.RowHoldsWithin tolerance x i := by
  rw [isFeasible?]
  split
  · rename_i hlen
    simp [hlen]
  · rename_i hlen
    have hlen : x.length = lp.columnCount := not_not.mp hlen
    rw [SparseMatrix.firstCells?, SparseMatrix.firstCells?,
      if_pos ⟨hlen.trans hlp.g_cols.symm, hlp.g_rows.le.trans (le_max_left _ _)⟩,
      if_pos ⟨hlen.trans hlp.a_cols.symm, hlp.a_rows.le.trans (le_max_left _ _)⟩,
      SparseMatrix.firstCells_eq_take, SparseMatrix.firstCells_eq_take,
      List.take_of_length_le (by rw [SparseMatrix.length_mulVec, hlp.g_rows]),
      List.take_of_length_le (by rw [SparseMatrix.length_mulVec, hlp.a_rows]),
      ← satisfied_iff_rowHoldsWithin hlp]
    simp [hlen]

/-- The check of a point with tolerance zero decides feasibility. -/
theorem isFeasible?_zero {lp : LinearProgram ℚ} (hlp : lp.WellFormed) (x : List ℚ) :
    lp.isFeasible? x 0 = some true ↔ lp.Feasible x := by
  rw [isFeasible?_iff_rowHoldsWithin hlp, feasible_iff_rowHolds hlp]
  simp only [rowHoldsWithin_zero]

/-! ### The objective -/

/-- Products term by term are summed up to the end of the first list, as the second one continues
with zeros. -/
theorem sum_zipWith_mul (c x : List ℚ) :
    (List.zipWith (· * ·) c x).sum = ∑ j ∈ Finset.range c.length, c.getD j 0 * x.getD j 0 := by
  induction c generalizing x with
  | nil => simp
  | cons k c ih =>
    rw [List.length_cons, Finset.sum_range_succ']
    cases x with
    | nil => simp
    | cons v x =>
      rw [List.zipWith_cons_cons, List.sum_cons, ih, add_comm]
      simp

/-- The objective at a point is the sum over the columns. -/
theorem objective_eq_sum (lp : LinearProgram ℚ) (x : List ℚ) :
    lp.objective x = ∑ j ∈ Finset.range lp.columnCount, lp.c.getD j 0 * x.getD j 0 := by
  rw [objective, Scalar.sum_rat, sum_zipWith_mul, columnCount]

end LinearProgram

end RelationalLP
