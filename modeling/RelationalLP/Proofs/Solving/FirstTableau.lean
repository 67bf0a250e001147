import Mathlib
import RelationalLP.Proofs.Linear.Feasibility
import RelationalLP.Proofs.Solving.BasicForm

/-! # The first tableau

The first tableau of a program is in basic form with nonnegative right sides. A nonnegative solution
of its rows without artificial columns is a feasible point of the program, split into positive and
negative parts and completed by slacks; each feasible point is one, at the same costs. -/

namespace RelationalLP

namespace Tableau

/-! ### Rows as lists one after another -/

/-- The sum of a list of cells times the coordinates of a vector. -/
def dotWith (cells : List ℚ) (z : ℕ → ℚ) : ℚ :=
  ∑ j ∈ Finset.range cells.length, cells.getD j 0 * z j

theorem dotWith_append (xs ys : List ℚ) (z : ℕ → ℚ) :
    dotWith (xs ++ ys) z = dotWith xs z + dotWith ys fun j => z (xs.length + j) := by
  rw [dotWith, List.length_append, Finset.sum_range_add]
  congr 1
  · refine Finset.sum_congr rfl fun j hj => ?_
    rw [List.getD_append _ _ _ _ (Finset.mem_range.mp hj)]
  · refine Finset.sum_congr rfl fun j _ => ?_
    rw [List.getD_append_right _ _ _ _ (Nat.le_add_right _ _), Nat.add_sub_cancel_left]

theorem dotWith_map_range (n : ℕ) (f z : ℕ → ℚ) :
    dotWith ((List.range n).map f) z = ∑ j ∈ Finset.range n, f j * z j := by
  rw [dotWith, List.length_map, List.length_range]
  refine Finset.sum_congr rfl fun j hj => ?_
  rw [List.getD_eq_getElem _ _ (by simpa using hj), List.getElem_map, List.getElem_range]

/-- The residual of a row that ends with its right side. -/
theorem residual_append_singleton {xs : List ℚ} {n : ℕ} (h : xs.length = n) (r : ℚ) (z : ℕ → ℚ) :
    residual n (xs ++ [r]) z = dotWith xs z - r := by
  subst h
  rw [residual, dotWith, List.getD_append_right _ _ _ _ le_rfl, Nat.sub_self]
  congr 1
  refine Finset.sum_congr rfl fun j hj => ?_
  rw [List.getD_append _ _ _ _ (Finset.mem_range.mp hj)]

/-- Minus one for a negative right side, one otherwise. -/
def sign (r : ℚ) : ℚ := if r < 0 then -1 else 1

theorem sign_ne_zero (r : ℚ) : sign r ≠ 0 := by
  rw [sign]
  split <;> norm_num

theorem sign_mul_self (r : ℚ) : sign r * r = |r| := by
  rw [sign]
  split
  · rename_i h
    rw [abs_of_neg h, neg_one_mul]
  · rename_i h
    rw [abs_of_nonneg (not_lt.mp h), one_mul]

/-- Turning a row multiplies its cells by the sign. -/
theorem orient_eq_map (r : ℚ) (cells : List ℚ) : orient r cells = cells.map (sign r * ·) := by
  rw [orient, sign]
  split
  · exact List.map_congr_left fun x _ => (neg_one_mul x).symm
  · rw [List.map_congr_left fun x _ => one_mul x, List.map_id']

theorem dotWith_orient (r : ℚ) (cells : List ℚ) (z : ℕ → ℚ) :
    dotWith (orient r cells) z = sign r * dotWith cells z := by
  rw [orient_eq_map, dotWith, dotWith, List.length_map, Finset.mul_sum]
  refine Finset.sum_congr rfl fun j hj => ?_
  have hj := Finset.mem_range.mp hj
  rw [List.getD_eq_getElem _ _ (by simpa using hj), List.getElem_map, List.getD_eq_getElem _ _ hj,
    mul_assoc]

@[simp] theorem length_orient (r : ℚ) (cells : List ℚ) : (orient r cells).length = cells.length := by
  rw [orient_eq_map, List.length_map]

/-- Looking up a column in a row reads the cell. -/
theorem lookup_row {m : SparseMatrix ℚ} (h : SortedByPosition m.entries) (i j : ℕ) :
    (m.row i).lookup j = m.entries.lookup (i, j) := by
  rw [SparseMatrix.row_eq_map_filter h]
  induction m.entries with
  | nil => rfl
  | cons e es ih =>
    obtain ⟨⟨r, c⟩, v⟩ := e
    rw [List.lookup_cons]
    by_cases hr : r = i
    · subst hr
      rw [List.filter_cons_of_pos (by simp), List.map_cons, List.lookup_cons]
      by_cases hc : j = c
      · simp [hc]
      · rw [beq_false_of_ne hc, beq_false_of_ne (fun h => hc (Prod.mk.inj h).2), ih]
    · rw [List.filter_cons_of_neg (by simpa using hr), ih,
        beq_false_of_ne fun h => hr (Prod.mk.inj h).1.symm]

/-- The structural cells of a row times a vector: the row at the difference of both parts. -/
theorem dotWith_splitRow {m : SparseMatrix ℚ} (h : SortedByPosition m.entries) (i n : ℕ) (z : ℕ → ℚ) :
    dotWith (splitRow m i n) z = ∑ j ∈ Finset.range n, m.get i j * (z j - z (n + j)) := by
  have hneg : ∀ j, (((m.row i).lookup j).map (- ·)).getD 0 = -m.get i j := by
    intro j
    rw [lookup_row h, SparseMatrix.get_eq_lookup h]
    cases m.entries.lookup (i, j) <;> simp
  have hpos : ∀ j, ((m.row i).lookup j).getD 0 = m.get i j := by
    intro j
    rw [lookup_row h, SparseMatrix.get_eq_lookup h]
  rw [splitRow, dotWith_append]
  simp only [hneg, hpos]
  rw [dotWith_map_range, dotWith_map_range, ← Finset.sum_add_distrib, List.length_map,
    List.length_range]
  exact Finset.sum_congr rfl fun j _ => by ring

@[simp] theorem length_splitRow (m : SparseMatrix ℚ) (i n : ℕ) : (splitRow m i n).length = 2 * n := by
  simp [splitRow]
  omega

@[simp] theorem length_unitRow (size : ℕ) (p : Option ℕ) :
    (unitRow (K := ℚ) size p).length = size := by
  simp [unitRow]

theorem dotWith_unitRow_some {size i : ℕ} (h : i < size) (z : ℕ → ℚ) :
    dotWith (unitRow size (some i)) z = z i := by
  rw [unitRow, dotWith_map_range, Finset.sum_eq_single_of_mem i (Finset.mem_range.mpr h)]
  · rw [if_pos rfl, one_mul]
  · intro j _ hj
    rw [if_neg (fun heq => hj (Option.some.inj heq).symm), zero_mul]

theorem dotWith_unitRow_none (size : ℕ) (z : ℕ → ℚ) :
    dotWith (unitRow size none) z = 0 := by
  rw [unitRow, dotWith_map_range]
  exact Finset.sum_eq_zero fun j _ => by rw [if_neg nofun, zero_mul]

/-! ### The first row of a constraint -/

/-- The artificial cells of a row: one in its own column. -/
def artificialCells (total i : ℕ) (rhs : ℚ) : List ℚ :=
  (orient rhs (List.replicate total 0)).set i 1

theorem getD_artificialCells {total i : ℕ} (rhs : ℚ) (hi : i < total) (k : ℕ) :
    (artificialCells total i rhs).getD k 0 = if k = i then 1 else 0 := by
  rw [artificialCells, orient_eq_map, List.map_replicate, mul_zero, List.getD_eq_getElem?_getD]
  by_cases hk : k = i
  · subst hk
    simp [hi]
  · rw [List.getElem?_set_ne (Ne.symm hk), if_neg hk, List.getElem?_replicate]
    split <;> rfl

theorem length_artificialCells (total i : ℕ) (rhs : ℚ) :
    (artificialCells total i rhs).length = total := by
  simp [artificialCells]

theorem firstRow_eq (total i : ℕ) (cells : List ℚ) (rhs : ℚ) :
    firstRow total i cells rhs
      = orient rhs cells ++ artificialCells total i rhs ++ [sign rhs * rhs] := by
  rw [firstRow, artificialCells, orient_eq_map rhs [rhs]]
  rfl

theorem dotWith_artificialCells {total i : ℕ} (rhs : ℚ) (hi : i < total) (z : ℕ → ℚ) :
    dotWith (artificialCells total i rhs) z = z i := by
  rw [dotWith, length_artificialCells,
    Finset.sum_eq_single_of_mem i (Finset.mem_range.mpr hi)]
  · rw [getD_artificialCells rhs hi, if_pos rfl, one_mul]
  · intro k _ hk
    rw [getD_artificialCells rhs hi, if_neg hk, zero_mul]

/-- A first row at a vector: the signed constraint and the artificial coordinate. -/
theorem residual_firstRow {total i n : ℕ} {cells : List ℚ} (rhs : ℚ) (hi : i < total)
    (hn : cells.length + total = n) (z : ℕ → ℚ) :
    residual n (firstRow total i cells rhs) z
      = sign rhs * (dotWith cells z - rhs) + z (cells.length + i) := by
  rw [firstRow_eq, residual_append_singleton
      (by rw [List.length_append, length_orient, length_artificialCells, hn]),
    dotWith_append, dotWith_orient, dotWith_artificialCells rhs hi, length_orient]
  ring

/-- The artificial columns of a first row are unit columns. -/
theorem getD_firstRow_artificial {total i k : ℕ} (cells : List ℚ) (rhs : ℚ) (hi : i < total)
    (hk : k < total) :
    (firstRow total i cells rhs).getD (cells.length + k) 0 = if i = k then 1 else 0 := by
  rw [firstRow_eq, List.getD_append _ _ _ _
      (by rw [List.length_append, length_orient, length_artificialCells]; omega),
    List.getD_append_right _ _ _ _ (by rw [length_orient]; omega), length_orient,
    Nat.add_sub_cancel_left, getD_artificialCells rhs hi]
  exact if_congr eq_comm rfl rfl

/-- The right side of a first row is nonnegative. -/
theorem getD_firstRow_last {total i n : ℕ} {cells : List ℚ} (rhs : ℚ)
    (hn : cells.length + total = n) : (firstRow total i cells rhs).getD n 0 = |rhs| := by
  rw [firstRow_eq, List.getD_append_right _ _ _ _
      (by rw [List.length_append, length_orient, length_artificialCells, hn]),
    List.length_append, length_orient, length_artificialCells, hn, Nat.sub_self, ← sign_mul_self]
  rfl

theorem length_firstRow (total i : ℕ) (cells : List ℚ) (rhs : ℚ) :
    (firstRow total i cells rhs).length = cells.length + total + 1 := by
  rw [firstRow_eq, List.length_append, List.length_append, length_orient, length_artificialCells]
  rfl

/-! ### The first tableau of a program -/

variable {lp : LinearProgram ℚ}

/-- The structural cells of a row before its sign is turned. -/
def structuralCells (lp : LinearProgram ℚ) (i : ℕ) : List ℚ :=
  if i < lp.inequalityCount then
    splitRow lp.g i lp.columnCount ++ unitRow lp.inequalityCount (some i)
  else splitRow lp.a (i - lp.inequalityCount) lp.columnCount ++ unitRow lp.inequalityCount none

theorem length_structuralCells (lp : LinearProgram ℚ) (i : ℕ) :
    (structuralCells lp i).length = (ofProgram lp).structural := by
  rw [structuralCells]
  split <;> simp [ofProgram]

@[simp] theorem height_ofProgram (lp : LinearProgram ℚ) : (ofProgram lp).height = lp.rowCount := by
  simp [height, ofProgram, LinearProgram.rowCount, LinearProgram.inequalityCount,
    LinearProgram.equationCount]

theorem structural_ofProgram (lp : LinearProgram ℚ) :
    (ofProgram lp).structural = 2 * lp.columnCount + lp.inequalityCount := rfl

theorem rhsColumn_ofProgram (lp : LinearProgram ℚ) :
    (ofProgram lp).rhsColumn = (ofProgram lp).structural + lp.rowCount := by
  rw [rhsColumn_eq, height_ofProgram]

/-- The rows of the first tableau. -/
theorem getD_rows_ofProgram {i : ℕ} (hi : i < lp.rowCount) :
    (ofProgram lp).rows.getD i []
      = firstRow lp.rowCount i (structuralCells lp i) (lp.rightSide i) := by
  have hlen : ∀ f : ℕ → ℚ → List ℚ, (lp.h.mapIdx f).length = lp.inequalityCount := fun f => by
    rw [List.length_mapIdx, LinearProgram.inequalityCount]
  simp only [ofProgram]
  by_cases hlt : i < lp.inequalityCount
  · rw [List.getD_append _ _ _ _ (by rw [hlen]; exact hlt),
      List.getD_eq_getElem _ _ (by rw [hlen]; exact hlt), List.getElem_mapIdx, structuralCells,
      if_pos hlt, LinearProgram.rightSide_of_lt hlt, List.getD_eq_getElem _ _ hlt]
    rfl
  · obtain ⟨k, rfl⟩ := Nat.exists_eq_add_of_le (not_lt.mp hlt)
    have hk : k < lp.b.length := by
      rw [LinearProgram.rowCount, LinearProgram.equationCount] at hi
      omega
    rw [List.getD_append_right _ _ _ _ (by rw [hlen]; omega), hlen, Nat.add_sub_cancel_left,
      List.getD_eq_getElem _ _ (by rw [List.length_mapIdx]; exact hk), List.getElem_mapIdx,
      structuralCells, if_neg hlt, LinearProgram.rightSide_add, Nat.add_sub_cancel_left,
      List.getD_eq_getElem _ _ hk]
    rfl

/-- The slack of a row at a vector; equations have none. -/
def slack (lp : LinearProgram ℚ) (i : ℕ) (z : ℕ → ℚ) : ℚ :=
  if i < lp.inequalityCount then z (2 * lp.columnCount + i) else 0

/-- The point that a vector of structural columns stands for. -/
def pointOf (n : ℕ) (z : ℕ → ℚ) : List ℚ := (List.range n).map fun j => z j - z (n + j)

theorem getD_pointOf {n j : ℕ} (hj : j < n) (z : ℕ → ℚ) :
    (pointOf n z).getD j 0 = z j - z (n + j) := by
  simp [pointOf, List.getD_eq_getElem?_getD, List.getElem?_range hj]

/-- The structural cells of a row at a vector: the row at its point, and the slack. -/
theorem dotWith_structuralCells (hlp : lp.WellFormed) (i : ℕ) (z : ℕ → ℚ) :
    dotWith (structuralCells lp i) z
      = lp.rowValue (pointOf lp.columnCount z) i + slack lp i z := by
  have hrow : lp.rowValue (pointOf lp.columnCount z) i
      = ∑ j ∈ Finset.range lp.columnCount, lp.cell i j * (z j - z (lp.columnCount + j)) := by
    refine Finset.sum_congr rfl fun j hj => ?_
    rw [getD_pointOf (Finset.mem_range.mp hj)]
  rw [structuralCells, slack, hrow]
  split
  · rename_i hlt
    rw [dotWith_append, dotWith_splitRow hlp.g_wellFormed.sorted, dotWith_unitRow_some hlt, length_splitRow]
    simp only [LinearProgram.cell, if_pos hlt]
  · rename_i hge
    rw [dotWith_append, dotWith_splitRow hlp.a_wellFormed.sorted, dotWith_unitRow_none]
    simp only [LinearProgram.cell, if_neg hge]

/-- A row of the first tableau at a vector: the signed constraint with its slack, and the artificial
coordinate. -/
theorem residual_ofProgram (hlp : lp.WellFormed) {i : ℕ} (hi : i < lp.rowCount) (z : ℕ → ℚ) :
    residual (ofProgram lp).rhsColumn ((ofProgram lp).rows.getD i []) z
      = sign (lp.rightSide i)
          * (lp.rowValue (pointOf lp.columnCount z) i + slack lp i z - lp.rightSide i)
        + z ((ofProgram lp).structural + i) := by
  rw [getD_rows_ofProgram hi, residual_firstRow _ hi
      (by rw [length_structuralCells, rhsColumn_ofProgram]),
    dotWith_structuralCells hlp, length_structuralCells]

/-- The basic columns of the first tableau are the artificial ones. -/
theorem basicColumn_ofProgram {i : ℕ} (hi : i < lp.rowCount) :
    (ofProgram lp).basicColumn i = (ofProgram lp).structural + i := by
  have hi' : i < lp.inequalityCount + lp.equationCount := hi
  simp [basicColumn, ofProgram, List.getD_eq_getElem?_getD, List.getElem?_range hi']

/-- **The first tableau is in basic form.** -/
theorem basicForm_ofProgram (lp : LinearProgram ℚ) : (ofProgram lp).BasicForm where
  basis_length := by
    rw [height_ofProgram]
    simp [ofProgram, LinearProgram.rowCount]
  row_length := by
    intro i hi
    rw [height_ofProgram] at hi
    rw [getD_rows_ofProgram hi, length_firstRow, length_structuralCells, width_eq,
      rhsColumn_ofProgram]
  cost_length := by
    rw [width_eq, rhsColumn_ofProgram]
    simp [ofProgram, LinearProgram.rowCount]
  basic_lt := by
    intro i hi
    rw [height_ofProgram] at hi
    rw [basicColumn_ofProgram hi, rhsColumn_ofProgram]
    omega
  unit := by
    intro i hi k hk
    rw [height_ofProgram] at hi hk
    rw [basicColumn_ofProgram hk, cell, getD_rows_ofProgram hi, ← length_structuralCells lp i,
      getD_firstRow_artificial _ _ hi hk]

/-- The right sides of the first tableau are nonnegative. -/
theorem rightSide_ofProgram_nonneg {i : ℕ} (hi : i < lp.rowCount) :
    0 ≤ (ofProgram lp).rightSide i := by
  rw [rightSide, cell, getD_rows_ofProgram hi,
    getD_firstRow_last _ (by rw [length_structuralCells, rhsColumn_ofProgram])]
  exact abs_nonneg _

/-! ### Solutions and feasible points -/

/-- A vector of structural columns: nonnegative, and zero at the artificial columns. -/
structure IsStructural (t : Tableau ℚ) (z : ℕ → ℚ) : Prop where
  /-- No coordinate is negative. -/
  nonneg : ∀ j, 0 ≤ z j
  /-- Artificial columns are zero. -/
  zero : ∀ j, t.structural ≤ j → z j = 0

/-- **Solutions without artificial columns are feasible points.** -/
theorem feasible_pointOf (hlp : lp.WellFormed) {z : ℕ → ℚ}
    (hz : IsStructural (ofProgram lp) z) (hs : (ofProgram lp).Solves z) :
    lp.Feasible (pointOf lp.columnCount z) := by
  rw [LinearProgram.feasible_iff_rowHolds hlp]
  refine ⟨by simp [pointOf], fun i hi => ?_⟩
  have hrow := hs i (by rw [height_ofProgram]; exact hi)
  rw [residual_ofProgram hlp hi, hz.zero _ (Nat.le_add_right _ _), add_zero, mul_eq_zero] at hrow
  have heq := sub_eq_zero.mp (hrow.resolve_left (sign_ne_zero _))
  rw [slack] at heq
  rw [LinearProgram.RowHolds]
  split
  · rename_i hlt
    rw [if_pos hlt] at heq
    linarith [hz.nonneg (2 * lp.columnCount + i)]
  · rename_i hge
    rwa [if_neg hge, add_zero] at heq

/-- A point as a vector of structural columns: positive parts, negative parts, slacks. -/
def vectorOf (lp : LinearProgram ℚ) (x : List ℚ) (j : ℕ) : ℚ :=
  if j < lp.columnCount then max (x.getD j 0) 0
  else if j < 2 * lp.columnCount then max (-x.getD (j - lp.columnCount) 0) 0
  else if j < (ofProgram lp).structural then
    lp.rightSide (j - 2 * lp.columnCount) - lp.rowValue x (j - 2 * lp.columnCount)
  else 0

/-- The point of the vector of a point is the point. -/
theorem pointOf_vectorOf {x : List ℚ} (hx : x.length = lp.columnCount) :
    pointOf lp.columnCount (vectorOf lp x) = x := by
  refine List.ext_getElem (by simp [pointOf, hx]) fun j hj hj' => ?_
  have hlt : j < lp.columnCount := by rwa [hx] at hj'
  rw [← List.getD_eq_getElem _ 0, ← List.getD_eq_getElem _ 0, getD_pointOf hlt, vectorOf,
    if_pos hlt, vectorOf, if_neg (by omega), if_pos (by omega), Nat.add_sub_cancel_left,
    max_zero_sub_max_neg_zero_eq_self]

/-- **Feasible points are solutions without artificial columns.** -/
theorem isStructural_vectorOf (hlp : lp.WellFormed) {x : List ℚ} (hx : lp.Feasible x) :
    IsStructural (ofProgram lp) (vectorOf lp x) ∧ (ofProgram lp).Solves (vectorOf lp x) := by
  obtain ⟨hlen, hrows⟩ := (LinearProgram.feasible_iff_rowHolds hlp x).mp hx
  have hstruct := structural_ofProgram lp
  have hzero : ∀ j, (ofProgram lp).structural ≤ j → vectorOf lp x j = 0 := by
    intro j hj
    rw [vectorOf, if_neg (by omega), if_neg (by omega), if_neg (by omega)]
  refine ⟨⟨fun j => ?_, hzero⟩, fun i hi => ?_⟩
  · -- a coordinate is a positive part, a negative part, a slack or zero
    rw [vectorOf]
    split
    · exact le_max_right _ _
    · split
      · exact le_max_right _ _
      · split
        · have hi : j - 2 * lp.columnCount < lp.inequalityCount := by omega
          have hrow := hrows (j - 2 * lp.columnCount) (by rw [LinearProgram.rowCount]; omega)
          rw [LinearProgram.RowHolds, if_pos hi] at hrow
          exact sub_nonneg.mpr hrow
        · exact le_rfl
  · rw [height_ofProgram] at hi
    rw [residual_ofProgram hlp hi, pointOf_vectorOf hlen, hzero _ (Nat.le_add_right _ _), add_zero,
      mul_eq_zero, slack]
    right
    have hrow := hrows i hi
    rw [LinearProgram.RowHolds] at hrow
    split
    · rename_i hlt
      rw [vectorOf, if_neg (by omega), if_neg (by omega), if_pos (by omega),
        Nat.add_sub_cancel_left]
      ring
    · rename_i hge
      rw [if_neg hge] at hrow
      rw [hrow, add_zero, sub_self]

/-- **The structural costs of a vector are the objective of its point.** -/
theorem sum_structuralCosts (lp : LinearProgram ℚ) {n : ℕ} (hn : (ofProgram lp).structural ≤ n)
    (z : ℕ → ℚ) :
    ∑ j ∈ Finset.range n, (structuralCosts lp).getD j 0 * z j
      = lp.objective (pointOf lp.columnCount z) := by
  have hlen : (structuralCosts lp).length = (ofProgram lp).structural := by
    rw [structural_ofProgram]
    simp [structuralCosts, LinearProgram.columnCount]
    omega
  -- the columns behind the structural ones cost nothing
  have hdot : ∑ j ∈ Finset.range n, (structuralCosts lp).getD j 0 * z j
      = dotWith (structuralCosts lp) z := by
    rw [dotWith, hlen]
    refine (Finset.sum_subset (Finset.range_mono hn) fun j _ hj => ?_).symm
    rw [Finset.mem_range, not_lt, ← hlen] at hj
    rw [List.getD_eq_default _ _ hj, zero_mul]
  have hmap : ∀ w : ℕ → ℚ, dotWith (lp.c.map (- ·)) w
      = ∑ j ∈ Finset.range lp.columnCount, -lp.c.getD j 0 * w j := by
    intro w
    rw [dotWith, List.length_map]
    refine Finset.sum_congr rfl fun j hj => ?_
    have hj : j < lp.c.length := Finset.mem_range.mp hj
    rw [List.getD_eq_getElem _ _ (by rw [List.length_map]; exact hj), List.getElem_map,
      List.getD_eq_getElem _ _ hj]
  have hzeros : ∀ w : ℕ → ℚ, dotWith (List.replicate lp.inequalityCount 0) w = 0 := by
    intro w
    refine Finset.sum_eq_zero fun j _ => ?_
    rw [List.getD_eq_getElem?_getD, List.getElem?_replicate]
    split <;> simp
  rw [hdot, structuralCosts, dotWith_append, dotWith_append, hmap, hzeros, add_zero,
    LinearProgram.objective_eq_sum, dotWith, ← LinearProgram.columnCount,
    ← Finset.sum_add_distrib]
  refine Finset.sum_congr rfl fun j hj => ?_
  rw [getD_pointOf (Finset.mem_range.mp hj)]
  ring

end Tableau

end RelationalLP
