import Mathlib
import RelationalLP.Proofs.Solving.BasicForm

/-! # The choice of pivots

What the entering column and the leaving row are, and what a phase of pivots keeps. With tolerance
zero the entering column is the first allowed one with a negative reduced cost, and the leaving row
has the least ratio of right side and cell among the rows with a positive cell, and of equal ratios
the least basic column. -/

namespace RelationalLP

namespace Tableau

variable {t : Tableau ℚ} {tolerance : ℚ}

/-! ### The entering column -/

/-- The entering column is the first allowed column whose reduced cost is below the tolerance. -/
theorem entering?_eq_some {allowed col : ℕ} (hcost : allowed ≤ t.cost.length)
    (h : t.entering? tolerance allowed = some col) :
    col < allowed ∧ t.reducedCost col < -tolerance
      ∧ ∀ j < col, -tolerance ≤ t.reducedCost j := by
  obtain ⟨hlt, hneg, hmin⟩ := List.findIdx?_eq_some_iff_getElem.mp h
  rw [List.length_take, min_eq_left hcost] at hlt
  rw [List.getElem_take, decide_eq_true_eq] at hneg
  refine ⟨hlt, ?_, fun j hj => ?_⟩
  · rw [reducedCost, List.getD_eq_getElem _ _ (by omega)]
    exact hneg
  · have hj' := hmin j hj
    rw [List.getElem_take, Bool.not_eq_true, decide_eq_false_iff_not, not_lt] at hj'
    rw [reducedCost, List.getD_eq_getElem _ _ (by omega)]
    exact hj'

/-- Without an entering column no allowed reduced cost is below the tolerance. -/
theorem entering?_eq_none {allowed : ℕ} (hcost : allowed ≤ t.cost.length)
    (h : t.entering? tolerance allowed = none) {j : ℕ} (hj : j < allowed) :
    -tolerance ≤ t.reducedCost j := by
  have hall := List.findIdx?_eq_none_iff.mp h
  have hmem : t.cost[j] ∈ t.cost.take allowed := by
    rw [List.mem_iff_getElem]
    exact ⟨j, by rw [List.length_take]; omega, by rw [List.getElem_take]⟩
  have hj' := hall _ hmem
  rw [decide_eq_false_iff_not, not_lt] at hj'
  rw [reducedCost, List.getD_eq_getElem _ _ (by omega)]
  exact hj'

/-! ### The leaving row -/

/-- The ratio of right side and cell that bounds a column in a row. -/
def ratio (t : Tableau ℚ) (col i : ℕ) : ℚ := t.rightSide i / t.cell i col

/-- A row is the best of the first `k` rows: its cell is positive, and among those with a positive
cell it has the least ratio, and of equal ratios the least basic column. -/
structure BestUpTo (t : Tableau ℚ) (col k row : ℕ) : Prop where
  /-- The row is one of them. -/
  row_lt : row < k
  /-- Its cell is positive. -/
  cell_pos : 0 < t.cell row col
  /-- No other row has a smaller ratio, or the same with a smaller basic column. -/
  least : ∀ i < k, 0 < t.cell i col → t.ratio col row < t.ratio col i
    ∨ t.ratio col row = t.ratio col i ∧ t.basicColumn row ≤ t.basicColumn i

/-- The best row so far after the first `k` rows. -/
def bestOf (t : Tableau ℚ) (tolerance : ℚ) (col k : ℕ) : Option (ℕ × ℚ) :=
  (List.range k).foldl (fun best i =>
    if t.cell i col ≤ tolerance then best else t.better tolerance best i (t.ratio col i)) none

theorem bestOf_succ (t : Tableau ℚ) (tolerance : ℚ) (col k : ℕ) :
    t.bestOf tolerance col (k + 1)
      = if t.cell k col ≤ tolerance then t.bestOf tolerance col k
        else t.better tolerance (t.bestOf tolerance col k) k (t.ratio col k) := by
  rw [bestOf, List.range_succ, List.foldl_append]
  rfl

/-- The leaving row is the best of all rows. -/
theorem leaving?_eq_bestOf (t : Tableau ℚ) (tolerance : ℚ) (col : ℕ) :
    t.leaving? tolerance col = (t.bestOf tolerance col t.height).map Prod.fst := by
  have hzip : t.rows.zipIdx = (List.range t.height).map fun i => (t.rows.getD i [], i) := by
    refine List.ext_getElem (by simp [height]) fun i hi _ => ?_
    rw [List.length_zipIdx] at hi
    rw [List.getElem_zipIdx, List.getElem_map, List.getElem_range, Nat.zero_add,
      List.getD_eq_getElem _ _ hi]
  rw [leaving?, hzip, List.foldl_map]
  rfl

/-- A comparison keeps one of its two rows. -/
theorem better_cases (t : Tableau ℚ) (tolerance : ℚ) (best : Option (ℕ × ℚ)) (i : ℕ) (r : ℚ) :
    t.better tolerance best i r = some (i, r)
      ∨ best ≠ none ∧ t.better tolerance best i r = best := by
  cases best with
  | none => exact .inl rfl
  | some b =>
    obtain ⟨k, s⟩ := b
    rw [better]
    split
    · exact .inr ⟨by simp, rfl⟩
    · exact .inl rfl

/-- The best row so far is one of the rows, with a cell above the tolerance. -/
theorem cell_of_bestOf_eq_some {col k row : ℕ} {r : ℚ}
    (h : t.bestOf tolerance col k = some (row, r)) :
    row < k ∧ tolerance < t.cell row col := by
  induction k with
  | zero => exact nomatch h
  | succ k ih =>
    rw [bestOf_succ] at h
    split at h
    · obtain ⟨hlt, hcell⟩ := ih h
      exact ⟨hlt.trans (Nat.lt_succ_self k), hcell⟩
    · rename_i hcell
      rcases t.better_cases tolerance (t.bestOf tolerance col k) k (t.ratio col k) with hb | ⟨-, hb⟩
      · rw [hb, Option.some.injEq, Prod.mk.injEq] at h
        obtain ⟨rfl, -⟩ := h
        exact ⟨Nat.lt_succ_self k, not_le.mp hcell⟩
      · rw [hb] at h
        obtain ⟨hlt, hcell⟩ := ih h
        exact ⟨hlt.trans (Nat.lt_succ_self k), hcell⟩

/-- Without a best row no cell is above the tolerance. -/
theorem cell_le_of_bestOf_eq_none {col k : ℕ} (h : t.bestOf tolerance col k = none) {i : ℕ}
    (hi : i < k) : t.cell i col ≤ tolerance := by
  induction k with
  | zero => omega
  | succ k ih =>
    rw [bestOf_succ] at h
    split at h
    · rename_i hcell
      rcases Nat.lt_succ_iff_lt_or_eq.mp hi with hlt | rfl
      · exact ih h hlt
      · exact hcell
    · rcases t.better_cases tolerance (t.bestOf tolerance col k) k (t.ratio col k)
        with hb | ⟨hne, hb⟩
      · rw [hb] at h
        exact nomatch h
      · rw [hb] at h
        exact absurd h hne

/-- The best row stays the best when the next one is not better. -/
theorem BestUpTo.succ {col k row : ℕ} (h : t.BestUpTo col k row)
    (hnext : 0 < t.cell k col → t.ratio col row < t.ratio col k
      ∨ t.ratio col row = t.ratio col k ∧ t.basicColumn row ≤ t.basicColumn k) :
    t.BestUpTo col (k + 1) row := by
  refine ⟨h.row_lt.trans (Nat.lt_succ_self k), h.cell_pos, fun i hi hpos => ?_⟩
  rcases Nat.lt_succ_iff_lt_or_eq.mp hi with hlt | rfl
  · exact h.least i hlt hpos
  · exact hnext hpos

/-- The next row is the best when no row before it is better. -/
theorem bestUpTo_last {col k : ℕ} (hcell : 0 < t.cell k col)
    (hleast : ∀ i < k, 0 < t.cell i col → t.ratio col k < t.ratio col i
      ∨ t.ratio col k = t.ratio col i ∧ t.basicColumn k ≤ t.basicColumn i) :
    t.BestUpTo col (k + 1) k := by
  refine ⟨Nat.lt_succ_self k, hcell, fun i hi hpos => ?_⟩
  rcases Nat.lt_succ_iff_lt_or_eq.mp hi with hlt | rfl
  · exact hleast i hlt hpos
  · exact .inr ⟨rfl, le_rfl⟩

/-- The next row takes the place of the best one when that is not better. -/
theorem BestUpTo.replace {col k row : ℕ} (h : t.BestUpTo col k row) (hcell : 0 < t.cell k col)
    (hle : t.ratio col k ≤ t.ratio col row)
    (hbasic : t.ratio col k = t.ratio col row → t.basicColumn k ≤ t.basicColumn row) :
    t.BestUpTo col (k + 1) k := by
  refine bestUpTo_last hcell fun i hi hpos => ?_
  rcases h.least i hi hpos with hlt | ⟨heq, hbasic'⟩
  · exact .inl (hle.trans_lt hlt)
  · rcases hle.lt_or_eq with hlt | heq'
    · exact .inl (hlt.trans_eq heq)
    · exact .inr ⟨heq'.trans heq, (hbasic heq').trans hbasic'⟩

/-- With tolerance zero a row stays the best when its ratio is smaller, or the same with a smaller basic
column. -/
theorem better_zero (t : Tableau ℚ) (k i : ℕ) (s r : ℚ) : t.better 0 (some (k, s)) i r
    = if s < r ∨ r = s ∧ t.basicColumn k < t.basicColumn i then some (k, s) else some (i, r) := by
  rw [better, Scalar.abs_rat, add_zero]
  refine if_congr ?_ rfl rfl
  rw [Bool.or_eq_true, Bool.and_eq_true, decide_eq_true_eq, decide_eq_true_eq, decide_eq_true_eq,
    abs_nonpos_iff, sub_eq_zero]
  rfl

/-- With tolerance zero the best row so far is the best of the rows seen, and carries its ratio. -/
theorem bestUpTo_of_bestOf_eq_some {col k row : ℕ} {r : ℚ}
    (h : t.bestOf 0 col k = some (row, r)) : r = t.ratio col row ∧ t.BestUpTo col k row := by
  induction k generalizing row r with
  | zero => exact nomatch h
  | succ k ih =>
    rw [bestOf_succ] at h
    split at h
    · rename_i hcell
      obtain ⟨hr, hbest⟩ := ih h
      exact ⟨hr, hbest.succ fun hpos => absurd hpos (not_lt.mpr hcell)⟩
    · rename_i hcell
      have hcell : 0 < t.cell k col := not_le.mp hcell
      cases hb : t.bestOf 0 col k with
      | none =>
        rw [hb, better, Option.some.injEq, Prod.mk.injEq] at h
        obtain ⟨rfl, rfl⟩ := h
        exact ⟨rfl, bestUpTo_last hcell fun i hi hpos =>
          absurd hpos (not_lt.mpr (cell_le_of_bestOf_eq_none hb hi))⟩
      | some b =>
        obtain ⟨j, s⟩ := b
        obtain ⟨rfl, hbest⟩ := ih hb
        rw [hb, better_zero] at h
        split at h
        · -- the row found before stays
          rename_i hkeep
          obtain ⟨rfl, rfl⟩ := Prod.mk.inj (Option.some.inj h)
          exact ⟨rfl, hbest.succ fun _ => hkeep.imp_right fun ⟨heq, hbasic⟩ =>
            ⟨heq.symm, hbasic.le⟩⟩
        · -- the new row takes its place
          rename_i hkeep
          obtain ⟨rfl, rfl⟩ := Prod.mk.inj (Option.some.inj h)
          rw [not_or, not_lt, not_and, not_lt] at hkeep
          exact ⟨rfl, hbest.replace hcell hkeep.1 hkeep.2⟩

/-- A leaving row is a row with a cell above the tolerance. -/
theorem leaving?_eq_some {col row : ℕ} (h : t.leaving? tolerance col = some row) :
    row < t.height ∧ tolerance < t.cell row col := by
  rw [leaving?_eq_bestOf] at h
  obtain ⟨⟨i, r⟩, hb, rfl⟩ := Option.map_eq_some_iff.mp h
  exact cell_of_bestOf_eq_some hb

/-- Without a leaving row no cell of the column is above the tolerance. -/
theorem leaving?_eq_none {col : ℕ} (h : t.leaving? tolerance col = none) {i : ℕ}
    (hi : i < t.height) : t.cell i col ≤ tolerance := by
  rw [leaving?_eq_bestOf, Option.map_eq_none_iff] at h
  exact cell_le_of_bestOf_eq_none h hi

/-- **The leaving row is the best row**, with tolerance zero. -/
theorem bestUpTo_of_leaving?_eq_some {col row : ℕ} (h : t.leaving? 0 col = some row) :
    t.BestUpTo col t.height row := by
  rw [leaving?_eq_bestOf] at h
  obtain ⟨⟨i, r⟩, hb, rfl⟩ := Option.map_eq_some_iff.mp h
  exact (bestUpTo_of_bestOf_eq_some hb).2

/-- **Pivots on the best row keep the right sides nonnegative.** -/
theorem Sized.rightSide_pivot_nonneg (hs : t.Sized) {col row : ℕ}
    (hbest : t.BestUpTo col t.height row) (hrhs : ∀ i < t.height, 0 ≤ t.rightSide i) {i : ℕ}
    (hi : i < t.height) : 0 ≤ (t.pivot row col).rightSide i := by
  have hrow := hbest.row_lt
  have hpos := hbest.cell_pos
  rw [rightSide, rhsColumn_pivot, hs.cell_pivot hrow hi]
  have hratio : 0 ≤ t.cell row t.rhsColumn / t.cell row col := div_nonneg (hrhs row hrow) hpos.le
  split
  · exact hratio
  · rcases le_or_gt (t.cell i col) 0 with hle | hgt
    · have hmul := mul_nonpos_of_nonpos_of_nonneg hle hratio
      have hi' : 0 ≤ t.cell i t.rhsColumn := hrhs i hi
      linarith
    · have hle : t.ratio col row ≤ t.ratio col i := by
        rcases hbest.least i hi hgt with hlt | ⟨heq, -⟩
        · exact hlt.le
        · exact heq.le
      have hmul := mul_le_mul_of_nonneg_left hle hgt.le
      rw [ratio, ratio, mul_div_cancel₀ _ hgt.ne'] at hmul
      exact sub_nonneg.mpr hmul

/-! ### A phase of pivots -/

/-- What is known of the tableau at the end of a phase: a phase ends without an entering column, or
with an entering column that no row limits. -/
def PhaseEnd.Reaches (tolerance : ℚ) (allowed : ℕ) (P : Tableau ℚ → Prop) : PhaseEnd ℚ → Prop
  | .optimal t _ => P t ∧ t.entering? tolerance allowed = none
  | .unbounded t _ => P t ∧ ∃ col, t.entering? tolerance allowed = some col
      ∧ t.leaving? tolerance col = none
  | .exhausted => True

/-- **What every pivot of a phase keeps holds at its end.** -/
theorem reaches_optimize (tolerance : ℚ) (allowed : ℕ) {P : Tableau ℚ → Prop}
    (step : ∀ s row col, P s → s.entering? tolerance allowed = some col →
      s.leaving? tolerance col = some row → P (s.pivot row col))
    (left : ℕ) (t : Tableau ℚ) (h : P t) :
    (optimize tolerance allowed left t).Reaches tolerance allowed P := by
  -- a phase ends where no column is wanted or no row limits it, and says nothing when the pivots run out
  induction left generalizing t with
  | zero =>
    rw [optimize]
    cases he : t.entering? tolerance allowed with
    | none => exact ⟨h, he⟩
    | some col =>
      simp only
      cases hl : t.leaving? tolerance col with
      | none => exact ⟨h, col, he, hl⟩
      | some row => trivial
  | succ left ih =>
    rw [optimize]
    cases he : t.entering? tolerance allowed with
    | none => exact ⟨h, he⟩
    | some col =>
      simp only
      cases hl : t.leaving? tolerance col with
      | none => exact ⟨h, col, he, hl⟩
      | some row => exact ih _ (step t row col h he hl)

end Tableau

end RelationalLP
