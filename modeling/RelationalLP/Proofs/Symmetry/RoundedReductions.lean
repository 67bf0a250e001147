import Mathlib
import RelationalLP.Proofs.Symmetry.FiniteReductions

/-! # Reductions computed in doubles

A program of doubles stands for a program of exact numbers. The reduction of the doubles keeps the same rows
and has the same basis as the reduction of the exact numbers, but the columns of a class are added up in
doubles. So its rows and its objective are off by the additions, of which there is one for each column at
most. Main statements: `abs_rowDot_reduce_sub_le`, `abs_objective_reduction_sub_le`. -/

namespace RelationalLP

namespace SparseMatrix

/-! ### Exact matrices -/

/-- The matrix of the values of a function at the stored entries. -/
def mapValues {K L : Type} (m : SparseMatrix K) (f : K → L) : SparseMatrix L :=
  { rows := m.rows, cols := m.cols, entries := m.entries.map fun e => (e.1, f e.2) }

/-- The exact values of a matrix of doubles. -/
def exact (m : SparseMatrix Double) : SparseMatrix ℚ := m.mapValues Double.exact

variable {m : SparseMatrix Double}

theorem WellFormed.mapValues {K L : Type} {m : SparseMatrix K} (h : m.WellFormed) (f : K → L) :
    (m.mapValues f).WellFormed where
  sorted := List.pairwise_map.mpr h.sorted
  inside := List.forall_mem_map.mpr h.inside

theorem total_eq_weigh (f : Position → ℚ) (es : List (Position × Double)) :
    total f es = weigh f (es.map fun e => (e.1, e.2.exact)) := by
  simp [total, weigh, Function.comp_def]

theorem size_eq_weigh (f : Position → ℚ) (es : List (Position × Double)) :
    size f es = weigh (fun p => |f p|) (es.map fun e => (e.1, |e.2.exact|)) := by
  simp [size, weigh, Function.comp_def, abs_mul]

theorem rowDot_exact (m : SparseMatrix Double) (i : ℕ) (x : List ℚ) :
    m.exact.rowDot i x = total (rowWeight i x) m.entries := by
  rw [rowDot_eq_weigh, total_eq_weigh]
  rfl

/-! ### Selected rows -/

/-- The entries of some rows, each at its new row. -/
def selected (m : SparseMatrix Double) (rows : List ℕ) : List (Position × Double) :=
  rows.zipIdx.flatMap fun (old, new) => (m.row old).map fun (j, v) => ((new, j), v)

/-- Rows are selected without regard to the values. -/
theorem weigh_selected (h : SortedByPosition m.entries) (φ : Double → ℚ) (g : ℕ → ℚ) (rows : List ℕ)
    {k : ℕ} (hk : k < rows.length) :
    weigh (fun p => if p.1 = k then g p.2 else 0) ((m.selected rows).map fun e => (e.1, φ e.2))
      = weigh (fun p => if p.1 = rows[k] then g p.2 else 0) (m.entries.map fun e => (e.1, φ e.2)) := by
  have hsorted : SortedByPosition (m.mapValues φ).entries := List.pairwise_map.mpr h
  have hrow : ∀ i, (m.mapValues φ).row i = (m.row i).map fun e => (e.1, φ e.2) := by
    intro i
    rw [row_eq_map_filter hsorted, row_eq_map_filter h, mapValues, List.filter_map, List.map_map,
      List.map_map]
    rfl
  have hselect := weigh_selectRows g hsorted rows k
  rw [selectRows, weigh_ofTriplets, List.getElem?_eq_getElem hk] at hselect
  simp only [hrow] at hselect
  rw [selected, List.map_flatMap]
  simp only [List.map_map] at hselect ⊢
  exact hselect

theorem nodup_selected (h : SortedByPosition m.entries) (rows : List ℕ) :
    ((m.selected rows).map Prod.fst).Nodup := by
  rw [selected, List.map_flatMap, List.nodup_flatMap]
  constructor
  · rintro ⟨old, new⟩ -
    rw [List.map_map]
    exact List.pairwise_map.mpr ((pairwise_row h old).imp fun hlt heq => hlt.ne (congrArg Prod.snd heq))
  · -- entries of different new rows are at different positions
    have hnew : (rows.zipIdx.map Prod.snd).Nodup := by
      rw [List.zipIdx_map_snd]
      exact List.nodup_range'
    have hrow : ∀ {c : ℕ × ℕ} {q : Position},
        q ∈ ((m.row c.1).map fun e => ((c.2, e.1), e.2)).map Prod.fst → q.1 = c.2 := by
      intro c q hq
      obtain ⟨e, -, rfl⟩ := List.mem_map.mp (List.map_map ▸ hq)
      rfl
    exact (List.pairwise_map.mp hnew).imp fun hne q ha hb => hne ((hrow ha).symm.trans (hrow hb))

/-- Selecting rows rounds nothing. -/
theorem drift_selectRows (f : Position → ℚ) (h : SortedByPosition m.entries) (rows : List ℕ) :
    Drift f 0 (m.selected rows) (m.selectRows rows).entries :=
  (drift_filter f _).trans (.of_perm (perm_ofTriplets_of_nodup _ _ (nodup_selected h rows)).symm)

theorem total_selected (h : SortedByPosition m.entries) (x : List ℚ) (rows : List ℕ) {k : ℕ}
    (hk : k < rows.length) :
    total (rowWeight k x) (m.selected rows) = total (rowWeight rows[k] x) m.entries := by
  rw [total_eq_weigh, total_eq_weigh]
  exact weigh_selected h Double.exact (x.getD · 0) rows hk

theorem size_selected (h : SortedByPosition m.entries) (x : List ℚ) (rows : List ℕ) {k : ℕ}
    (hk : k < rows.length) :
    size (rowWeight k x) (m.selected rows) = size (rowWeight rows[k] x) m.entries := by
  have habs : ∀ i, (fun p => |rowWeight i x p|) = fun p => if p.1 = i then |x.getD p.2 0| else 0 := by
    intro i
    funext p
    rw [rowWeight, apply_ite abs, abs_zero]
  rw [size_eq_weigh, size_eq_weigh, habs, habs]
  exact weigh_selected h (fun v => |v.exact|) (fun j => |x.getD j 0|) rows hk

/-! ### Merged columns -/

/-- Merged columns are off by one addition for each number that has a weight. -/
theorem abs_total_mergeColumns_sub_le (f : Position → ℚ) {classOf : ℕ → ℕ} {cols : ℕ}
    (hfin : AllFinite (m.mergeColumns classOf cols).entries) :
    |total f (m.mergeColumns classOf cols).entries - total (f ∘ fun p => (p.1, classOf p.2)) m.entries|
      ≤ (growth (weighted (f ∘ fun p => (p.1, classOf p.2)) m.entries) - 1)
        * size (f ∘ fun p => (p.1, classOf p.2)) m.entries := by
  rw [← total_map, ← size_map, ← weighted_map]
  exact (drift_ofTriplets f hfin).total_le

/-- A row of a matrix has at most one number for each column. -/
theorem weighted_rowWeight_le (h : m.WellFormed) (i : ℕ) (x : List ℚ) :
    weighted (rowWeight i x) m.entries ≤ m.cols := by
  refine le_trans ?_ (length_row_le h i)
  rw [row_eq_map_filter h.sorted, List.length_map, ← List.countP_eq_length_filter]
  refine List.countP_mono_left fun e _ he => ?_
  by_contra hrow
  simp [rowWeight, of_decide_eq_false (Bool.eq_false_of_not_eq_true hrow)] at he

/-- **A row of a reduced matrix** is near the kept row at the expanded point: it is off by one addition for
each column at most. -/
theorem abs_rowDot_reduce_sub_le {p : Partition} (hm : m.WellFormed)
    (hcols : p.colClasses.length = m.cols) (rows : List ℕ) (y : List ℚ) {k : ℕ} (hk : k < rows.length)
    (hfin : AllFinite
      ((m.selectRows rows).mergeColumns (p.colClasses.getD · 0) p.colClassCount).entries) :
    |((m.selectRows rows).mergeColumns (p.colClasses.getD · 0) p.colClassCount).exact.rowDot k y
        - m.exact.rowDot rows[k] (p.spread y)|
      ≤ (growth m.cols - 1) * size (rowWeight rows[k] (p.spread y)) m.entries := by
  have hselected : (m.selectRows rows).WellFormed :=
    ⟨(Tally.sorted_ofList _).filter _, inside_selectRows hm rows⟩
  -- the weights of the merged columns are those of the expanded point
  have hweight : ∀ e ∈ (m.selectRows rows).entries,
      (rowWeight k y ∘ fun q => (q.1, p.colClasses.getD q.2 0)) e.1 = rowWeight k (p.spread y) e.1 := by
    intro e he
    have hcol := (inside_selectRows hm rows e he).2
    rw [Function.comp_apply, rowWeight, rowWeight, Partition.getD_spread p y (hcols.symm ▸ hcol),
      Partition.colClass]
  have hmerge := abs_total_mergeColumns_sub_le (rowWeight k y) hfin
  rw [total_congr hweight, size_congr hweight, weighted_congr hweight] at hmerge
  -- selecting the rows rounds nothing before the columns are merged
  have hselect := drift_selectRows (rowWeight k (p.spread y)) hm.sorted rows
  have hsize := hselect.size_le
  rw [growth, pow_zero, one_mul, size_selected hm.sorted _ _ hk] at hsize
  rw [hselect.total_eq, total_selected hm.sorted _ _ hk] at hmerge
  rw [rowDot_exact, rowDot_exact]
  exact hmerge.trans (mul_le_mul
    (sub_le_sub_right (growth_mono (weighted_rowWeight_le hselected k (p.spread y))) 1) hsize
    (size_nonneg _ _) (sub_nonneg.mpr (one_le_growth _)))

end SparseMatrix

namespace LinearProgram

variable {lp : LinearProgram Double} {p : Partition}

/-! ### Exact programs -/

/-- The exact values of a program of doubles. -/
def exact (lp : LinearProgram Double) : LinearProgram ℚ where
  c := lp.c.map Double.exact
  g := lp.g.exact
  h := lp.h.map Double.exact
  a := lp.a.exact
  b := lp.b.map Double.exact

@[simp] theorem columnCount_exact (lp : LinearProgram Double) : lp.exact.columnCount = lp.columnCount :=
  List.length_map _

@[simp] theorem inequalityCount_exact (lp : LinearProgram Double) :
    lp.exact.inequalityCount = lp.inequalityCount := List.length_map _

@[simp] theorem equationCount_exact (lp : LinearProgram Double) :
    lp.exact.equationCount = lp.equationCount := List.length_map _

/-- A program of doubles that passes the checks has consistent dimensions. -/
theorem wellFormed_exact (hg : lp.g.WellFormed) (ha : lp.a.WellFormed) (h : lp.validate = .ok ()) :
    lp.exact.WellFormed := by
  obtain ⟨hgc, hac, hgr, har⟩ := sizes_of_validate fun _ _ _ hsize => nomatch h.symm.trans hsize
  exact ⟨hg.mapValues _, ha.mapValues _, by rwa [columnCount_exact], by rwa [columnCount_exact],
    by rwa [inequalityCount_exact], by rwa [equationCount_exact]⟩

/-! ### Merged objectives -/

/-- The numbers of a list of classes, placed in a column. -/
def placed (items : List (ℕ × Double)) : List (Position × Double) := items.map fun e => ((e.1, 0), e.2)

/-- The weight of one class. -/
def classWeight (y : ℕ → ℚ) (k : ℕ) (q : Position) : ℚ := if q.1 = k then y k else 0

/-- The numbers of one class, added up. -/
def classTotal (k : ℕ) (start : Double) (items : List (ℕ × Double)) : Double :=
  items.foldl (fun total (j, v) => if j = k then total + v else total) start

theorem classTotal_cons (k : ℕ) (start : Double) (e : ℕ × Double) (items : List (ℕ × Double)) :
    classTotal k start (e :: items)
      = classTotal k (if e.1 = k then start + e.2 else start) items := rfl

/-- A total of a class is one addition for each of its numbers. -/
theorem drift_classTotal (y : ℕ → ℚ) {k : ℕ} {items : List (ℕ × Double)} {start : Double}
    (h : (classTotal k start items).isFinite) :
    Drift (classWeight y k) (weighted (classWeight y k) (placed items))
      (((k, 0), start) :: placed items) [((k, 0), classTotal k start items)] := by
  induction items generalizing start with
  | nil => exact .of_perm (.refl _)
  | cons e items ih =>
    rw [classTotal_cons] at h
    have hfirst := (isFinite_of_foldl_class h).1
    have hrest := ih h
    rw [classTotal_cons, placed, List.map_cons, weighted_cons, ← placed]
    by_cases he : e.1 = k
    · rw [if_pos he] at hrest hfirst
      rw [he, if_pos rfl]
      exact ((drift_add (classWeight y k) (k, 0) hfirst).append_right (placed items)).trans hrest
    · rw [if_neg he] at hrest
      rw [if_neg he]
      have hnone : weighted (classWeight y k) [((e.1, 0), e.2)] = 0 := by
        simp [weighted, classWeight, he]
      have hskip : Drift (classWeight y k) 0 (((k, 0), start) :: ((e.1, 0), e.2) :: placed items)
          (((k, 0), start) :: placed items) :=
        .of_eq (by simp [classWeight, he]) (by simp [classWeight, he])
      rw [hnone]
      exact hskip.trans hrest

/-- Starting from zero adds nothing. -/
theorem drift_classTotal_zero (y : ℕ → ℚ) {k : ℕ} {items : List (ℕ × Double)}
    (h : (classTotal k 0 items).isFinite) :
    Drift (classWeight y k) (weighted (classWeight y k) (placed items)) (placed items)
      [((k, 0), classTotal k 0 items)] := by
  have hzero : (0 : Double).exact = 0 := Double.exact_of_isZero (by decide)
  have hstart : Drift (classWeight y k) 0 (placed items) (((k, 0), 0) :: placed items) :=
    .of_eq (by simp [hzero]) (by simp [hzero])
  simpa only [Nat.zero_add] using hstart.trans (drift_classTotal y h)

/-- Over all classes the weights of a class add up to the weights of the numbers. -/
theorem sum_total_classWeight (y : ℕ → ℚ) {count : ℕ} {items : List (ℕ × Double)}
    (h : ∀ e ∈ items, e.1 < count) :
    ∑ k ∈ Finset.range count, total (classWeight y k) (placed items)
      = total (fun q => y q.1) (placed items) := by
  induction items with
  | nil => exact Finset.sum_const_zero
  | cons e items ih =>
    obtain ⟨he, hitems⟩ := List.forall_mem_cons.mp h
    simp only [placed, List.map_cons, total_cons, Finset.sum_add_distrib, classWeight, ite_mul, zero_mul,
      Finset.sum_ite_eq, Finset.mem_range, if_pos he]
    exact congrArg (_ + ·) (ih hitems)

theorem sum_size_classWeight (y : ℕ → ℚ) {count : ℕ} {items : List (ℕ × Double)}
    (h : ∀ e ∈ items, e.1 < count) :
    ∑ k ∈ Finset.range count, size (classWeight y k) (placed items)
      = size (fun q => y q.1) (placed items) := by
  induction items with
  | nil => exact Finset.sum_const_zero
  | cons e items ih =>
    obtain ⟨he, hitems⟩ := List.forall_mem_cons.mp h
    simp only [placed, List.map_cons, size_cons, Finset.sum_add_distrib, classWeight, ite_mul, zero_mul,
      apply_ite abs, abs_zero, Finset.sum_ite_eq, Finset.mem_range, if_pos he]
    exact congrArg (_ + ·) (ih hitems)

/-- The absolute values of what an objective adds up. -/
def objectiveSize (lp : LinearProgram Double) (x : List ℚ) : ℚ :=
  (List.zipWith (fun c v => |c.exact * v|) lp.c x).sum

/-- **The objective of a reduction** is near the one of the expanded point: it is off by one addition for
each column at most. -/
theorem abs_objective_reduction_sub_le (hcols : p.colClasses.length = lp.columnCount)
    (hN : ∀ j < lp.columnCount, p.colClass j < p.colClassCount) (hfin : (lp.reduction p).IsFinite)
    (y : List ℚ) : |(lp.reduction p).exact.objective y - lp.exact.objective (p.spread y)|
      ≤ (growth lp.columnCount - 1) * lp.objectiveSize (p.spread y) := by
  have hitems : ∀ e ∈ p.colClasses.zip lp.c, e.1 < p.colClassCount := by
    rintro ⟨j, v⟩ he
    obtain ⟨i, hi, rfl⟩ := List.getElem_of_mem (List.of_mem_zip he).1
    have hclass := hN i (hcols ▸ hi)
    rwa [Partition.colClass, List.getD_eq_getElem _ _ hi] at hclass
  -- both objectives are sums over the classes
  have hmerged : (lp.reduction p).exact.objective y = ∑ k ∈ Finset.range p.colClassCount,
      total (classWeight (y.getD · 0) k) [((k, 0), classTotal k 0 (p.colClasses.zip lp.c))] := by
    have hc : (lp.reduction p).exact.c
        = (mergeObjective lp.c p.colClasses p.colClassCount).map Double.exact := rfl
    rw [objective_eq_sum, columnCount, hc, List.length_map, mergeObjective, List.length_map,
      List.length_range]
    refine Finset.sum_congr rfl fun k hk => ?_
    rw [List.getD_eq_getElem?_getD, List.getElem?_map, List.getElem?_map,
      List.getElem?_range (Finset.mem_range.mp hk)]
    simp [total, classWeight, classTotal, mul_comm]
  have hobjective : lp.exact.objective (p.spread y)
      = total (fun q => y.getD q.1 0) (placed (p.colClasses.zip lp.c)) := by
    rw [objective, Scalar.sum_rat, exact, Partition.spread, List.zipWith_map, List.zipWith_comm]
    simp [total, placed, List.zip, List.map_zipWith, mul_comm]
  have hsize : lp.objectiveSize (p.spread y)
      = size (fun q => y.getD q.1 0) (placed (p.colClasses.zip lp.c)) := by
    rw [objectiveSize, Partition.spread, List.zipWith_map_right, List.zipWith_comm]
    simp [size, placed, List.zip, List.map_zipWith, mul_comm]
  have hcount : ∀ k, weighted (classWeight (y.getD · 0) k) (placed (p.colClasses.zip lp.c))
      ≤ lp.columnCount := by
    intro k
    refine List.countP_le_length.trans ?_
    rw [placed, List.length_map, List.length_zip]
    exact Nat.min_le_right _ _
  rw [hmerged, hobjective, hsize, ← sum_total_classWeight (y.getD · 0) hitems,
    ← sum_size_classWeight (y.getD · 0) hitems,
    ← Finset.sum_sub_distrib, Finset.mul_sum]
  refine (Finset.abs_sum_le_sum_abs _ _).trans (Finset.sum_le_sum fun k hk => ?_)
  have hdrift := drift_classTotal_zero (y.getD · 0)
    ((isFinite_iff.mp hfin).1 _ (List.mem_map_of_mem (List.mem_range.mpr (Finset.mem_range.mp hk))))
  exact hdrift.total_le.trans (mul_le_mul_of_nonneg_right (sub_le_sub_right (growth_mono (hcount k)) 1)
    (size_nonneg _ _))

/-! ### Reduced programs -/

/-- **The expansion reads the class of each column**, in doubles as in exact numbers. -/
theorem mulVec_exact_expansion (hcols : p.colClasses.length = lp.columnCount) (y : List ℚ) :
    (lp.expansion p).exact.mulVec y = p.spread y := by
  have hcols' : p.colClasses.length = lp.exact.columnCount := by rwa [columnCount_exact]
  have hone : (1 : Double).exact = 1 := by
    rw [Double.exact_eq_exactOf (by decide), Double.value_one, Double.exactOf_finite, Double.factor]
    norm_num
  -- each column has one class, so no position occurs twice
  have hnodup : ((p.colClasses.zipIdx.map fun (k, j) => ((j, k), (1 : Double))).map Prod.fst).Nodup := by
    have hindices : (p.colClasses.zipIdx.map Prod.snd).Nodup := by
      rw [List.zipIdx_map_snd]
      exact List.nodup_range'
    rw [List.map_map]
    exact List.pairwise_map.mpr ((List.pairwise_map.mp hindices).imp fun hne heq =>
      hne (congrArg Prod.fst heq))
  have hdot : ∀ i, (lp.expansion p).exact.rowDot i y = (lp.exact.expansion p).rowDot i y := by
    intro i
    have hstored := (SparseMatrix.drift_filter (SparseMatrix.rowWeight i y) _).trans
      (.of_perm (SparseMatrix.perm_ofTriplets_of_nodup lp.columnCount p.colClassCount hnodup).symm)
    rw [SparseMatrix.rowDot_exact, expansion, hstored.total_eq, SparseMatrix.rowDot_eq_weigh, expansion,
      SparseMatrix.weigh_ofTriplets, SparseMatrix.total_eq_weigh, List.map_map]
    simp only [Function.comp_def, hone]
  rw [← mulVec_expansion hcols' y, SparseMatrix.mulVec_eq_map_rowDot, SparseMatrix.mulVec_eq_map_rowDot]
  simp only [hdot]
  simp [expansion, SparseMatrix.exact, SparseMatrix.mapValues, SparseMatrix.ofTriplets]

theorem getD_map_exact (xs : List Double) (i : ℕ) : (xs.map Double.exact).getD i 0 = (xs.getD i 0).exact := by
  have hzero : (0 : Double).exact = 0 := Double.exact_of_isZero (by decide)
  rw [← hzero, List.getD_map]

theorem getD_map_kept (xs : List Double) {rows : List ℕ} {k : ℕ} (hk : k < rows.length) :
    ((rows.map (xs.getD · 0)).map Double.exact).getD k 0 = (xs.map Double.exact).getD rows[k] 0 := by
  rw [getD_map_exact, getD_map_exact, List.getD_eq_getElem _ _ (by simpa), List.getElem_map]

/-- **What a feasible point of the reduction says** about its expansion: the kept rows hold up to the
rounding of their merged columns. -/
theorem kept_of_feasible (hg : lp.g.WellFormed) (ha : lp.a.WellFormed)
    (hgc : lp.g.cols = lp.columnCount) (hac : lp.a.cols = lp.columnCount)
    (hcols : p.colClasses.length = lp.columnCount) (hfin : (lp.reduction p).IsFinite) {y : List ℚ}
    (hy : (lp.reduction p).exact.Feasible y) :
    (∀ r ∈ lp.keptInequalities p, lp.exact.g.rowDot r (p.spread y)
        ≤ lp.exact.h.getD r 0 + (growth lp.columnCount - 1)
          * size (SparseMatrix.rowWeight r (p.spread y)) lp.g.entries)
      ∧ ∀ r ∈ lp.keptEquations p, |lp.exact.a.rowDot r (p.spread y) - lp.exact.b.getD r 0|
        ≤ (growth lp.columnCount - 1)
          * size (SparseMatrix.rowWeight r (p.spread y)) lp.a.entries := by
  obtain ⟨-, -, -, hgfin, hafin⟩ := isFinite_iff.mp hfin
  have hsizes : (lp.reduction p).exact.g.rows = (lp.reduction p).exact.inequalityCount
      ∧ (lp.reduction p).exact.a.rows = (lp.reduction p).exact.equationCount := by
    constructor <;> simp [inequalityCount, equationCount, exact, reduction, SparseMatrix.exact,
      SparseMatrix.mapValues, SparseMatrix.mergeColumns, SparseMatrix.selectRows, SparseMatrix.ofTriplets]
  obtain ⟨-, hineq, heq⟩ := (feasible_iff hsizes.1 hsizes.2 y).mp hy
  rw [inequalityCount_exact] at hineq
  rw [equationCount_exact] at heq
  constructor
  · intro r hr
    obtain ⟨k, hk, rfl⟩ := List.getElem_of_mem hr
    have hnear : |(lp.reduction p).exact.g.rowDot k y
        - lp.exact.g.rowDot (lp.keptInequalities p)[k] (p.spread y)| ≤ _ :=
      SparseMatrix.abs_rowDot_reduce_sub_le hg (hcols.trans hgc.symm) _ y hk hgfin
    have hside : (lp.reduction p).exact.h.getD k 0 = lp.exact.h.getD (lp.keptInequalities p)[k] 0 :=
      getD_map_kept lp.h hk
    have hholds := hineq k (by simpa [inequalityCount, reduction] using hk)
    rw [hgc, abs_le] at hnear
    linarith
  · intro r hr
    obtain ⟨k, hk, rfl⟩ := List.getElem_of_mem hr
    have hnear : |(lp.reduction p).exact.a.rowDot k y
        - lp.exact.a.rowDot (lp.keptEquations p)[k] (p.spread y)| ≤ _ :=
      SparseMatrix.abs_rowDot_reduce_sub_le ha (hcols.trans hac.symm) _ y hk hafin
    have hside : (lp.reduction p).exact.b.getD k 0 = lp.exact.b.getD (lp.keptEquations p)[k] 0 :=
      getD_map_kept lp.b hk
    rwa [heq k (by simpa [equationCount, reduction] using hk), hside, abs_sub_comm, hac] at hnear

end LinearProgram

end RelationalLP
