import Mathlib
import RelationalLP.Proofs.Collections.Traversal
import RelationalLP.Proofs.Symmetry.Averaging

/-! # Reduction by an equitable partition loses nothing

The reduced program keeps one row of each class and adds up the columns of each class. Its rows at a
point are the kept rows of the whole program at the expanded point. Main statement:
`liftWith_lossless`, for an equitable partition the reduction exists, a point is feasible for it
exactly when its expansion is feasible, and the class averages of a feasible point are feasible; so
both programs are feasible, bounded and optimal together. -/

namespace RelationalLP

namespace LinearProgram

/-! ### Representatives -/

/-- A representative is a place of the list. -/
theorem lt_of_mem_representatives {classes : List ℕ} {r : ℕ} (h : r ∈ representatives classes) :
    r < classes.length := by
  obtain ⟨k, hk, rfl⟩ := List.mem_map.mp h
  exact List.idxOf_lt_length_iff.mpr (mem_distinct.mp hk)

/-- Every place has a representative of its class. -/
theorem exists_representative {classes : List ℕ} {i : ℕ} (h : i < classes.length) :
    ∃ r ∈ representatives classes, classes.getD r 0 = classes.getD i 0 := by
  have hmem : classes.getD i 0 ∈ classes := by
    rw [List.getD_eq_getElem _ _ h]
    exact List.getElem_mem h
  refine ⟨classes.idxOf (classes.getD i 0), List.mem_map_of_mem (mem_distinct.mpr hmem), ?_⟩
  rw [List.getD_eq_getElem _ _ (List.idxOf_lt_length_iff.mpr hmem), List.getElem_idxOf]

/-- Every place of the first part has a representative of its class there. -/
theorem exists_representative_take {classes : List ℕ} {m i : ℕ} (hm : m ≤ classes.length)
    (hi : i < m) : ∃ r ∈ representatives (classes.take m), r < m ∧ classes[i]? = classes[r]? := by
  have hlen : (classes.take m).length = m := List.length_take_of_le hm
  obtain ⟨r, hr, hclass⟩ := exists_representative (hlen.symm ▸ hi)
  have hrm := hlen ▸ lt_of_mem_representatives hr
  rw [getD_eq_iff (hlen.symm ▸ hrm) (hlen.symm ▸ hi), List.getElem?_take_of_lt hrm,
    List.getElem?_take_of_lt hi] at hclass
  exact ⟨r, hr, hrm, hclass.symm⟩

/-- Every place of the second part has a representative of its class there. -/
theorem exists_representative_drop {classes : List ℕ} {m i : ℕ} (hi : m + i < classes.length) :
    ∃ r ∈ representatives (classes.drop m),
      m + r < classes.length ∧ classes[m + i]? = classes[m + r]? := by
  have hlen : (classes.drop m).length = classes.length - m := List.length_drop
  obtain ⟨r, hr, hclass⟩ := exists_representative (show i < (classes.drop m).length by omega)
  have hrm := lt_of_mem_representatives hr
  rw [getD_eq_iff hrm (by omega), List.getElem?_drop, List.getElem?_drop] at hclass
  exact ⟨r, hr, by omega, hclass.symm⟩

/-- A property of representatives holds of all rows when it depends only on the class. -/
theorem forall_representatives_iff {classes : List ℕ} {P : ℕ → Prop}
    (h : ∀ i < classes.length, ∀ k < classes.length, classes.getD k 0 = classes.getD i 0 →
      P k → P i) :
    (∀ r ∈ representatives classes, P r) ↔ ∀ i < classes.length, P i := by
  constructor
  · intro hr i hi
    obtain ⟨r, hmem, hclass⟩ := exists_representative hi
    exact h i hi r (lt_of_mem_representatives hmem) hclass (hr r hmem)
  · intro hall r hr
    exact hall r (lt_of_mem_representatives hr)

/-! ### The reduced program -/

section Reductions

variable {K : Type} [Scalar K]

/-- The representatives of the inequalities. -/
def keptInequalities (lp : LinearProgram K) (p : Partition) : List ℕ :=
  representatives (p.rowClasses.take lp.inequalityCount)

/-- The representatives of the equations, counted from the first equation. -/
def keptEquations (lp : LinearProgram K) (p : Partition) : List ℕ :=
  representatives (p.rowClasses.drop lp.inequalityCount)

/-- The program with the kept rows and the merged columns. -/
def reduction (lp : LinearProgram K) (p : Partition) : LinearProgram K where
  c := mergeObjective lp.c p.colClasses p.colClassCount
  g := (lp.g.selectRows (keptInequalities lp p)).mergeColumns (p.colClasses.getD · 0)
    p.colClassCount
  h := (keptInequalities lp p).map (lp.h.getD · 0)
  a := (lp.a.selectRows (keptEquations lp p)).mergeColumns (p.colClasses.getD · 0) p.colClassCount
  b := (keptEquations lp p).map (lp.b.getD · 0)

/-- The matrix that has a one for each column at its class. -/
def expansion (lp : LinearProgram K) (p : Partition) : SparseMatrix K :=
  SparseMatrix.ofTriplets lp.columnCount p.colClassCount
    (p.colClasses.zipIdx.map fun (k, j) => ((j, k), 1))

/-- A reduced matrix has the kept rows with merged columns. -/
theorem eq_of_reduceMatrix_eq_ok {m r : SparseMatrix K} {rows : List ℕ} {p : Partition}
    (h : reduceMatrix m rows p = .ok r) :
    r = (m.selectRows rows).mergeColumns (p.colClasses.getD · 0) p.colClassCount := by
  rw [reduceMatrix, SparseMatrix.mergeColumns?] at h
  split at h
  · rename_i reduced hreduced
    obtain rfl := Except.ok.inj h
    split at hreduced
    · exact (Option.some.inj hreduced).symm
    · cases hreduced
  · cases h

/-- What lifting by a partition returns. -/
theorem eq_of_liftWith_eq_ok {lp : LinearProgram K} {p : Partition} {l : LiftedProgram K}
    (hl : lp.liftWith p = .ok l) : l = { reduced := lp.reduction p, basis := lp.expansion p } := by
  obtain ⟨-, -, hl⟩ := bind_eq_ok_iff.mp hl
  obtain ⟨g, hg, hl⟩ := bind_eq_ok_iff.mp hl
  obtain ⟨a, ha, hl⟩ := bind_eq_ok_iff.mp hl
  obtain rfl := eq_of_reduceMatrix_eq_ok hg
  obtain rfl := eq_of_reduceMatrix_eq_ok ha
  exact (Except.ok.inj hl).symm

end Reductions

variable {lp : LinearProgram ℚ} {p : Partition}

/-- Merging the columns of kept rows succeeds when every column has a class. -/
theorem reduceMatrix_eq_ok {m : SparseMatrix ℚ} (hm : m.WellFormed)
    (hcols : m.cols = p.colClasses.length) (hN : ∀ j < m.cols, p.colClass j < p.colClassCount)
    (rows : List ℕ) :
    reduceMatrix m rows p
      = .ok ((m.selectRows rows).mergeColumns (p.colClasses.getD · 0) p.colClassCount) := by
  rw [reduceMatrix, SparseMatrix.mergeColumns?, if_pos]
  rw [List.all_eq_true]
  intro e he
  obtain ⟨hrow, hcol⟩ := SparseMatrix.inside_selectRows hm rows e he
  rw [Bool.and_eq_true, decide_eq_true_eq, ← hcols]
  refine ⟨hcol, ?_⟩
  rw [SparseMatrix.inRange, Bool.and_eq_true, decide_eq_true_eq, decide_eq_true_eq]
  exact ⟨hrow, hN e.1.2 hcol⟩

/-- A row is the row of the class list in its own part. -/
theorem getD_take_rowClasses (lp : LinearProgram ℚ) (p : Partition) {i : ℕ}
    (h : i < lp.inequalityCount) :
    (p.rowClasses.take lp.inequalityCount).getD i 0 = p.rowClass i := by
  rw [Partition.rowClass, List.getD_eq_getElem?_getD, List.getElem?_take_of_lt h,
    List.getD_eq_getElem?_getD]

theorem getD_drop_rowClasses (lp : LinearProgram ℚ) (p : Partition) (i : ℕ) :
    (p.rowClasses.drop lp.inequalityCount).getD i 0 = p.rowClass (lp.inequalityCount + i) := by
  rw [Partition.rowClass, List.getD_eq_getElem?_getD, List.getElem?_drop,
    List.getD_eq_getElem?_getD]

/-- An equitable partition passes the checks. -/
theorem Equitable.checkPartition_eq_ok (he : lp.Equitable p) :
    lp.checkPartition p = .ok () := by
  rw [checkPartition, if_neg (fun h => h he.row_count.symm),
    if_neg (fun h => h he.col_count.symm)]
  have hnone : (p.rowClasses.take lp.inequalityCount).find?
      (· ∈ p.rowClasses.drop lp.inequalityCount) = none := by
    rw [List.find?_eq_none]
    intro k hk hmem
    obtain ⟨i, hi, hik⟩ := List.mem_iff_getElem.mp hk
    obtain ⟨j, hj, hjk⟩ := List.mem_iff_getElem.mp (of_decide_eq_true hmem)
    rw [List.length_take] at hi
    rw [List.length_drop, he.row_count] at hj
    have hrow : i < lp.inequalityCount := by omega
    refine he.unmixed i hrow (lp.inequalityCount + j) (by omega) (Nat.le_add_right _ _) ?_
    rw [← getD_take_rowClasses lp p hrow, ← getD_drop_rowClasses lp p j,
      List.getD_eq_getElem _ _ (by rw [List.length_take]; omega),
      List.getD_eq_getElem _ _ (by rw [List.length_drop, he.row_count]; omega), hik, hjk]
  rw [hnone]

/-- **The reduction by a partition exists** when the partition passes the checks. -/
theorem liftWith_eq_ok (hcheck : lp.checkPartition p = .ok ()) (hlp : lp.WellFormed)
    (hcols : p.colClasses.length = lp.columnCount)
    (hN : ∀ j < lp.columnCount, p.colClass j < p.colClassCount) :
    lp.liftWith p = .ok { reduced := lp.reduction p, basis := lp.expansion p } := by
  have hg := reduceMatrix_eq_ok hlp.g_wellFormed (hlp.g_cols.trans hcols.symm)
    (by rw [hlp.g_cols]; exact hN) (keptInequalities lp p)
  have ha := reduceMatrix_eq_ok hlp.a_wellFormed (hlp.a_cols.trans hcols.symm)
    (by rw [hlp.a_cols]; exact hN) (keptEquations lp p)
  rw [keptInequalities] at hg
  rw [keptEquations] at ha
  rw [liftWith, hcheck]
  simp only [bind, Except.bind, hg, ha, pure, Except.pure]
  rfl

theorem Equitable.liftWith_eq_ok (he : lp.Equitable p) (hlp : lp.WellFormed)
    (hN : ∀ j < lp.columnCount, p.colClass j < p.colClassCount) :
    lp.liftWith p = .ok { reduced := lp.reduction p, basis := lp.expansion p } :=
  LinearProgram.liftWith_eq_ok he.checkPartition_eq_ok hlp he.col_count hN

/-- The expansion of a point reads the class of each column. -/
theorem mulVec_expansion (hcols : p.colClasses.length = lp.columnCount) (y : List ℚ) :
    (lp.expansion p).mulVec y = p.spread y := by
  refine List.ext_getElem (by simp [expansion, SparseMatrix.ofTriplets, hcols]) ?_
  intro i hi hi'
  have hlen : i < p.colClasses.length := by simpa using hi'
  have hsum : weigh (SparseMatrix.rowWeight i y) (p.colClasses.zipIdx.map fun (k, j) => ((j, k), 1))
      = (p.colClasses.zipIdx.map fun e => if e.2 = i then y.getD e.1 0 else 0).sum := by
    simp only [weigh, List.map_map, Function.comp_def, SparseMatrix.rowWeight, mul_one]
  have hdot : (lp.expansion p).rowDot i y = y.getD p.colClasses[i] 0 := by
    rw [SparseMatrix.rowDot_eq_weigh, expansion, SparseMatrix.weigh_ofTriplets, hsum,
      SparseMatrix.sum_zipIdx_ite (y.getD · 0), List.getElem?_eq_getElem hlen]
    rfl
  simp only [SparseMatrix.mulVec_eq_map_rowDot, Partition.spread, List.getElem_map, List.getElem_range, hdot]

theorem Equitable.mulVec_expansion (he : lp.Equitable p) (y : List ℚ) :
    (lp.expansion p).mulVec y = p.spread y := LinearProgram.mulVec_expansion he.col_count y

/-- A row of the reduced matrix is a kept row at the expanded point. -/
theorem rowDot_reduce {m : SparseMatrix ℚ} (hm : m.WellFormed) (hcols : p.colClasses.length = m.cols)
    (rows : List ℕ) (y : List ℚ) {k : ℕ} (hk : k < rows.length) :
    ((m.selectRows rows).mergeColumns (p.colClasses.getD · 0) p.colClassCount).rowDot k y
      = m.rowDot rows[k] (p.spread y) := by
  rw [SparseMatrix.rowDot_mergeColumns _ _ _ _ (p.spread y),
    SparseMatrix.rowDot_selectRows hm.sorted _ _ hk]
  intro e hmem
  have hcol := (SparseMatrix.inside_selectRows hm rows e hmem).2
  exact Partition.getD_spread p y (by rw [hcols]; exact hcol)

/-- A statement about the items of a list is one about its places. -/
theorem forall_lt_length_iff {P : ℕ → Prop} (rows : List ℕ) :
    (∀ k (h : k < rows.length), P rows[k]) ↔ ∀ r ∈ rows, P r := by
  constructor
  · intro h r hr
    obtain ⟨k, hk, rfl⟩ := List.mem_iff_getElem.mp hr
    exact h k hk
  · intro h k hk
    exact h _ (List.getElem_mem hk)

/-- **A point is feasible for the reduction exactly when the kept rows hold at its expansion.** -/
theorem feasible_reduction_iff_kept (hlp : lp.WellFormed)
    (hcols : p.colClasses.length = lp.columnCount) (y : List ℚ) :
    (lp.reduction p).Feasible y ↔ y.length = p.colClassCount
      ∧ (∀ r ∈ keptInequalities lp p, lp.g.rowDot r (p.spread y) ≤ lp.h.getD r 0)
      ∧ ∀ r ∈ keptEquations lp p, lp.a.rowDot r (p.spread y) = lp.b.getD r 0 := by
  have hineq : (∀ k < (lp.reduction p).inequalityCount,
        (lp.reduction p).g.rowDot k y ≤ (lp.reduction p).h.getD k 0)
      ↔ ∀ r ∈ keptInequalities lp p, lp.g.rowDot r (p.spread y) ≤ lp.h.getD r 0 := by
    rw [← forall_lt_length_iff]
    simp only [inequalityCount, reduction, List.length_map]
    refine forall₂_congr fun k hk => ?_
    rw [rowDot_reduce hlp.g_wellFormed (hcols.trans hlp.g_cols.symm) _ _ hk,
      List.getD_eq_getElem _ _ (by simpa), List.getElem_map]
  have heq : (∀ k < (lp.reduction p).equationCount,
        (lp.reduction p).a.rowDot k y = (lp.reduction p).b.getD k 0)
      ↔ ∀ r ∈ keptEquations lp p, lp.a.rowDot r (p.spread y) = lp.b.getD r 0 := by
    rw [← forall_lt_length_iff]
    simp only [equationCount, reduction, List.length_map]
    refine forall₂_congr fun k hk => ?_
    rw [rowDot_reduce hlp.a_wellFormed (hcols.trans hlp.a_cols.symm) _ _ hk,
      List.getD_eq_getElem _ _ (by simpa), List.getElem_map]
  rw [feasible_iff (by simp [reduction, SparseMatrix.mergeColumns, SparseMatrix.selectRows,
      SparseMatrix.ofTriplets, inequalityCount])
    (by simp [reduction, SparseMatrix.mergeColumns, SparseMatrix.selectRows,
      SparseMatrix.ofTriplets, equationCount]), hineq, heq]
  simp [reduction, columnCount, mergeObjective]

/-- **A point is feasible for the reduction exactly when its expansion is feasible.** -/
theorem Equitable.feasible_reduction_iff (he : lp.Equitable p) (hlp : lp.WellFormed)
    {y : List ℚ} (hy : y.length = p.colClassCount) :
    (lp.reduction p).Feasible y ↔ lp.Feasible (p.spread y) := by
  have hcount : lp.rowCount = lp.inequalityCount + lp.equationCount := rfl
  have hrows := he.row_count
  rw [feasible_reduction_iff_kept hlp he.col_count, feasible_iff hlp.g_rows hlp.a_rows,
    keptInequalities, keptEquations, forall_representatives_iff, forall_representatives_iff]
  · refine and_congr ?_ (and_congr ?_ ?_)
    · simp [hy, he.col_count]
    · rw [List.length_take, min_eq_left (by omega)]
    · rw [List.length_drop, hrows, hcount, Nat.add_sub_cancel_left]
  · -- equations of one class
    intro i hi k hk hclass h
    rw [List.length_drop] at hi hk
    rw [getD_drop_rowClasses, getD_drop_rowClasses] at hclass
    have hge : ∀ n, ¬ lp.inequalityCount + n < lp.inequalityCount := by omega
    have hrow := he.rowHolds_of_rowClass_eq y (i := lp.inequalityCount + i)
      (k := lp.inequalityCount + k) (by omega) (by omega) hclass.symm
    simp only [RowHolds, hge, if_false, rowValue_add hlp, rightSide_add] at hrow
    exact hrow h
  · -- inequalities of one class
    intro i hi k hk hclass h
    rw [List.length_take] at hi hk
    have hi' : i < lp.inequalityCount := by omega
    have hk' : k < lp.inequalityCount := by omega
    rw [getD_take_rowClasses lp p hi', getD_take_rowClasses lp p hk'] at hclass
    have hrow := he.rowHolds_of_rowClass_eq y (i := i) (k := k) (by omega) (by omega) hclass.symm
    simp only [RowHolds, if_pos hi', if_pos hk', rowValue_of_lt hlp _ hi', rowValue_of_lt hlp _ hk',
      rightSide_of_lt hi', rightSide_of_lt hk'] at hrow
    exact hrow h

/-- The loop of the merged objective adds up the objective over the columns of a class. -/
theorem foldl_zip_classes (classes : List ℕ) (c : List ℚ) (h : classes.length = c.length) (k : ℕ)
    (total : ℚ) :
    (classes.zip c).foldl (fun total e => if e.1 = k then total + e.2 else total) total
      = total + ∑ j ∈ Finset.range c.length, if classes.getD j 0 = k then c.getD j 0 else 0 := by
  induction classes generalizing c total with
  | nil =>
    obtain rfl : c = [] := List.length_eq_zero_iff.mp h.symm
    simp
  | cons j classes ih =>
    cases c with
    | nil => simp at h
    | cons v c =>
      rw [List.length_cons, List.length_cons, Nat.add_right_cancel_iff] at h
      rw [List.zip_cons_cons, List.foldl_cons, ih c h, List.length_cons, Finset.sum_range_succ']
      simp only [List.getD_cons_succ, List.getD_cons_zero]
      split <;> ring

/-- The merged objective at a class is the sum of the objective over its columns. -/
theorem getD_mergeObjective {c : List ℚ} {classes : List ℕ} (h : classes.length = c.length)
    {count k : ℕ} (hk : k < count) :
    (mergeObjective c classes count).getD k 0
      = ∑ j ∈ Finset.range c.length, if classes.getD j 0 = k then c.getD j 0 else 0 := by
  rw [mergeObjective, List.getD_eq_getElem?_getD, List.getElem?_map, List.getElem?_range hk]
  simp only [Option.map_some, Option.getD_some]
  rw [foldl_zip_classes classes c h, zero_add]

/-- **The reduced objective is the objective of the expanded point.** -/
theorem objective_reduction (hcols : p.colClasses.length = lp.columnCount)
    (hN : ∀ j < lp.columnCount, p.colClass j < p.colClassCount) (y : List ℚ) :
    (lp.reduction p).objective y = lp.objective (p.spread y) := by
  have hcount : (lp.reduction p).columnCount = p.colClassCount := by
    simp [reduction, columnCount, mergeObjective]
  rw [objective_eq_sum, objective_eq_sum, hcount]
  calc ∑ k ∈ Finset.range p.colClassCount, (lp.reduction p).c.getD k 0 * y.getD k 0
      = ∑ k ∈ Finset.range p.colClassCount, ∑ j ∈ Finset.range lp.columnCount,
          if p.colClass j = k then lp.c.getD j 0 * y.getD k 0 else 0 := by
        refine Finset.sum_congr rfl fun k hk => ?_
        rw [reduction, getD_mergeObjective hcols (Finset.mem_range.mp hk), Finset.sum_mul]
        refine Finset.sum_congr rfl fun j _ => ?_
        rw [ite_mul, zero_mul, Partition.colClass]
    _ = ∑ j ∈ Finset.range lp.columnCount, lp.c.getD j 0 * (p.spread y).getD j 0 := by
        rw [Finset.sum_comm]
        refine Finset.sum_congr rfl fun j hj => ?_
        have hj := Finset.mem_range.mp hj
        rw [Finset.sum_ite_eq, if_pos (Finset.mem_range.mpr (hN j hj)),
          Partition.getD_spread _ _ (by rw [hcols]; exact hj)]

theorem Equitable.objective_reduction (he : lp.Equitable p)
    (hN : ∀ j < lp.columnCount, p.colClass j < p.colClassCount) (y : List ℚ) :
    (lp.reduction p).objective y = lp.objective (p.spread y) :=
  LinearProgram.objective_reduction he.col_count hN y

/-! ### Both programs together -/

/-- Each feasible point of a program has one of another program with the same objective. -/
def TranslatesInto (small large : LinearProgram ℚ) : Prop :=
  ∀ y, small.Feasible y → ∃ x, large.Feasible x ∧ large.objective x = small.objective y

namespace TranslatesInto

variable {small large : LinearProgram ℚ}

theorem infeasible (h : small.TranslatesInto large) (hlarge : large.Infeasible) :
    small.Infeasible := by
  intro y hy
  obtain ⟨x, hx, -⟩ := h y hy
  exact hlarge x hx

theorem unbounded (h : small.TranslatesInto large) (hsmall : small.Unbounded) :
    large.Unbounded := by
  obtain ⟨⟨y, hy⟩, hlow⟩ := hsmall
  obtain ⟨x, hx, -⟩ := h y hy
  refine ⟨⟨x, hx⟩, fun bound => ?_⟩
  obtain ⟨y, hy, hlt⟩ := hlow bound
  obtain ⟨x, hx, heq⟩ := h y hy
  exact ⟨x, hx, heq.trans_lt hlt⟩

theorem isOptimum (h : small.TranslatesInto large) (h' : large.TranslatesInto small) {v : ℚ}
    (hv : small.IsOptimum v) : large.IsOptimum v := by
  obtain ⟨⟨y, hy, rfl⟩, hmin⟩ := hv
  obtain ⟨x, hx, heq⟩ := h y hy
  refine ⟨⟨x, hx, heq⟩, fun z hz => ?_⟩
  -- no point of the other program is better than the optimum here
  obtain ⟨w, hw, heq⟩ := h' z hz
  exact (hmin w hw).trans_eq heq

/-- Two programs whose feasible points translate into each other with equal objectives are
infeasible together, unbounded together, and have the same optimum. -/
theorem same_verdicts (up : small.TranslatesInto large) (down : large.TranslatesInto small) :
    (small.Infeasible ↔ large.Infeasible) ∧ (small.Unbounded ↔ large.Unbounded)
      ∧ ∀ v, small.IsOptimum v ↔ large.IsOptimum v :=
  ⟨⟨down.infeasible, up.infeasible⟩, ⟨up.unbounded, down.unbounded⟩,
    fun _ => ⟨up.isOptimum down, down.isOptimum up⟩⟩

end TranslatesInto

/-- **Reduction by an equitable partition is lossless.** For a program with consistent dimensions
and class labels that make an equitable partition, the reduction succeeds; a point is feasible for
the reduced program exactly when its expansion is feasible for the whole one, with the same
objective; the class averages of a feasible point are feasible for the reduced program, with the
same objective; hence both programs are infeasible together, unbounded together, and have the same
optimum. -/
theorem liftWith_lossless (lp : LinearProgram ℚ) (rows cols : List ℕ) (hlp : lp.WellFormed)
    (he : lp.Equitable (.ofLabels rows cols)) :
    ∃ l, lp.liftWith (.ofLabels rows cols) = .ok l
      ∧ (∀ y, y.length = (Partition.ofLabels rows cols).colClassCount →
          (l.reduced.Feasible y ↔ lp.Feasible (l.expand y))
            ∧ l.reduced.objective y = lp.objective (l.expand y))
      ∧ (∀ x, lp.Feasible x →
          l.reduced.Feasible ((Partition.ofLabels rows cols).classAverages x)
            ∧ l.reduced.objective ((Partition.ofLabels rows cols).classAverages x)
              = lp.objective x)
      ∧ (l.reduced.Infeasible ↔ lp.Infeasible) ∧ (l.reduced.Unbounded ↔ lp.Unbounded)
      ∧ ∀ v, l.reduced.IsOptimum v ↔ lp.IsOptimum v := by
  set p := Partition.ofLabels rows cols with hp
  have hN : ∀ j < lp.columnCount, p.colClass j < p.colClassCount := by
    intro j hj
    have hcols : (relabel cols).length = lp.columnCount := he.col_count
    exact getD_relabel_lt (by rw [← length_relabel cols, hcols]; exact hj)
  have hexpand : ∀ y, LiftedProgram.expand ⟨lp.reduction p, lp.expansion p⟩ y = p.spread y :=
    he.mulVec_expansion
  have hlen : ∀ x, (p.classAverages x).length = p.colClassCount := by
    simp [Partition.classAverages]
  have hdown : ∀ x, lp.Feasible x → (lp.reduction p).Feasible (p.classAverages x)
      ∧ (lp.reduction p).objective (p.classAverages x) = lp.objective x := by
    intro x hx
    refine ⟨(he.feasible_reduction_iff hlp (hlen x)).mpr
      (he.feasible_spread_classAverages hlp hN hx), ?_⟩
    rw [he.objective_reduction hN, he.objective_spread_classAverages hN]
  have hup : ∀ y, (lp.reduction p).Feasible y →
      lp.Feasible (p.spread y) ∧ lp.objective (p.spread y) = (lp.reduction p).objective y := by
    intro y hy
    have hy' : y.length = p.colClassCount := by
      simpa [reduction, columnCount, mergeObjective] using hy.1
    exact ⟨(he.feasible_reduction_iff hlp hy').mp hy, (he.objective_reduction hN y).symm⟩
  refine ⟨⟨lp.reduction p, lp.expansion p⟩, he.liftWith_eq_ok hlp hN, fun y hy => ?_, hdown,
    TranslatesInto.same_verdicts (fun y hy => ⟨_, hup y hy⟩) (fun x hx => ⟨_, hdown x hx⟩)⟩
  rw [hexpand]
  exact ⟨he.feasible_reduction_iff hlp hy, he.objective_reduction hN y⟩

/-- Two columns and two inequalities that may change places, and an equation over both columns. -/
def crossed : LinearProgram ℚ where
  c := [1, 1]
  g := .ofTriplets 2 2 [((0, 0), 1), ((0, 1), 2), ((1, 0), 2), ((1, 1), 1)]
  h := [3, 3]
  a := .ofTriplets 1 2 [((0, 0), 1), ((0, 1), 1)]
  b := [2]

theorem wellFormed_crossed : crossed.WellFormed where
  g_wellFormed := SparseMatrix.wellFormed_ofTriplets (by decide)
  a_wellFormed := SparseMatrix.wellFormed_ofTriplets (by decide)
  g_cols := rfl
  a_cols := rfl
  g_rows := rfl
  a_rows := rfl

theorem equitable_crossed : crossed.Equitable (.ofLabels [5, 5, 7] [4, 4]) where
  row_count := by decide
  col_count := by decide
  unmixed := by decide
  rightSide_eq := by decide +kernel
  objective_eq := by decide +kernel
  row_sums := by
    intro i hi k hk hik J
    by_cases hJ : J < 1
    · revert i k J
      decide +kernel
    · have hcols : ∀ j < crossed.columnCount,
          (Partition.ofLabels [5, 5, 7] [4, 4]).colClass j < 1 := by decide
      rw [Finset.filter_false_of_mem, Finset.sum_empty, Finset.sum_empty]
      rintro j hj rfl
      exact hJ (hcols j (Finset.mem_range.mp hj))
  col_sums := by
    intro j hj k hk hjk I
    by_cases hI : I < 2
    · revert j k I
      decide +kernel
    · have hrows : ∀ i < crossed.rowCount,
          (Partition.ofLabels [5, 5, 7] [4, 4]).rowClass i < 2 := by decide
      rw [Finset.filter_false_of_mem, Finset.sum_empty, Finset.sum_empty]
      rintro i hi rfl
      exact hI (hrows i (Finset.mem_range.mp hi))

/-- The crossed program reduces to one column, one inequality and one equation without loss. -/
theorem liftWith_lossless_crossed :
    crossed.WellFormed ∧ crossed.Equitable (.ofLabels [5, 5, 7] [4, 4])
      ∧ ∃ l, crossed.liftWith (.ofLabels [5, 5, 7] [4, 4]) = .ok l
        ∧ (l.reduced.Infeasible ↔ crossed.Infeasible)
        ∧ ∀ v, l.reduced.IsOptimum v ↔ crossed.IsOptimum v := by
  obtain ⟨l, hl, -, -, hinf, -, hopt⟩ :=
    liftWith_lossless crossed [5, 5, 7] [4, 4] wellFormed_crossed equitable_crossed
  exact ⟨wellFormed_crossed, equitable_crossed, l, hl, hinf, hopt⟩

end LinearProgram

end RelationalLP
