import Mathlib
import RelationalLP.Proofs.Solving.Cells

/-! # Tableaux in basic form

In basic form the basic columns are unit columns, so each tableau has a basic point, which gives the
right sides to the basic columns and zero to the others. Costs are priced when the reduced costs of
basic columns are zero and the cost row says what the costs say about every solution. A pivot on a
nonzero cell keeps both. From them follow the two ends of a phase: nonnegative reduced costs make
the basic point the cheapest, and a column without positive cells and with a negative reduced cost
gives a ray along which the costs fall without limit. -/

namespace RelationalLP

namespace Tableau

/-- **Basic form**: the column that is basic in a row is the unit column of that row. -/
structure BasicForm (t : Tableau ℚ) : Prop extends Sized t where
  /-- Basic columns are columns of variables. -/
  basic_lt : ∀ i < t.height, t.basicColumn i < t.rhsColumn
  /-- A basic column is a unit column. -/
  unit : ∀ i < t.height, ∀ k < t.height, t.cell i (t.basicColumn k) = if i = k then 1 else 0

/-- **Priced costs**: basic columns cost nothing, and the cost row with its last cell gives the costs
of every solution. -/
structure Priced (t : Tableau ℚ) (c : ℕ → ℚ) : Prop where
  /-- The reduced costs of basic columns are zero. -/
  basic_zero : ∀ i < t.height, t.reducedCost (t.basicColumn i) = 0
  /-- The cost row gives the costs of a solution. -/
  objective : ∀ z, t.Solves z →
    residual t.rhsColumn t.cost z = ∑ j ∈ Finset.range t.rhsColumn, c j * z j

variable {t : Tableau ℚ} {row col : ℕ}

/-- No column is basic in two rows. -/
theorem BasicForm.basicColumn_inj (h : t.BasicForm) {i k : ℕ} (hi : i < t.height)
    (hk : k < t.height) (heq : t.basicColumn i = t.basicColumn k) : i = k := by
  by_contra hne
  have hii := h.unit i hi i hi
  rw [if_pos rfl, heq, h.unit i hi k hk, if_neg hne] at hii
  exact zero_ne_one hii

/-- **A pivot on a nonzero cell keeps the basic form.** -/
theorem BasicForm.pivot (h : t.BasicForm) (hrow : row < t.height) (hcol : col < t.rhsColumn)
    (hne : t.cell row col ≠ 0) : (t.pivot row col).BasicForm where
  toSized := h.toSized.pivot hrow
  basic_lt := by
    intro i hi
    rw [height_pivot] at hi
    rw [basicColumn_pivot t row col (by rw [h.basis_length]; exact hrow), rhsColumn_pivot]
    split
    · exact hcol
    · exact h.basic_lt i hi
  unit := by
    intro i hi k hk
    rw [height_pivot] at hi hk
    rw [basicColumn_pivot t row col (by rw [h.basis_length]; exact hrow),
      h.toSized.cell_pivot hrow hi]
    by_cases hkr : k = row
    · subst hkr
      rw [if_pos rfl, div_self hne, mul_one, sub_self]
    · rw [if_neg hkr, h.unit row hrow k hk, if_neg (Ne.symm hkr), zero_div, mul_zero, sub_zero,
        h.unit i hi k hk]
      by_cases hir : i = row
      · rw [if_pos hir, if_neg (fun hik => hkr (hik.symm.trans hir))]
      · rw [if_neg hir]

/-- A pivot keeps costs priced. -/
theorem Priced.pivot {c : ℕ → ℚ} (hp : t.Priced c) (h : t.BasicForm) (hrow : row < t.height)
    (hne : t.cell row col ≠ 0) : (t.pivot row col).Priced c where
  basic_zero := by
    intro k hk
    rw [height_pivot] at hk
    rw [basicColumn_pivot t row col (by rw [h.basis_length]; exact hrow),
      h.toSized.reducedCost_pivot hrow]
    by_cases hkr : k = row
    · rw [if_pos hkr, div_self hne, mul_one, sub_self]
    · rw [if_neg hkr, hp.basic_zero k hk, h.unit row hrow k hk, if_neg (Ne.symm hkr), zero_div,
        mul_zero, sub_zero]
  objective := by
    intro z hz
    have hz' : t.Solves z := (h.toSized.solves_pivot_iff hrow hne z).mp hz
    rw [rhsColumn_pivot, h.toSized.residual_cost_pivot hrow hz', hp.objective z hz']

/-! ### Pricing -/

@[simp] theorem height_price (t : Tableau ℚ) (costs : List ℚ) :
    (t.price costs).height = t.height := rfl

@[simp] theorem rhsColumn_price (t : Tableau ℚ) (costs : List ℚ) :
    (t.price costs).rhsColumn = t.rhsColumn := rfl

@[simp] theorem structural_price (t : Tableau ℚ) (costs : List ℚ) :
    (t.price costs).structural = t.structural := rfl

@[simp] theorem basicColumn_price (t : Tableau ℚ) (costs : List ℚ) :
    (t.price costs).basicColumn = t.basicColumn := rfl

@[simp] theorem cell_price (t : Tableau ℚ) (costs : List ℚ) : (t.price costs).cell = t.cell := rfl

@[simp] theorem solves_price (t : Tableau ℚ) (costs : List ℚ) :
    (t.price costs).Solves = t.Solves := rfl

/-- The costs before pricing, with a zero for each column that they do not mention. -/
def paddedCosts (t : Tableau ℚ) (costs : List ℚ) : List ℚ :=
  costs ++ List.replicate (t.width - costs.length) 0

/-- The costs after the first `k` rows are priced out. -/
def pricedUpTo (t : Tableau ℚ) (costs : List ℚ) (k : ℕ) : List ℚ :=
  (List.range k).foldl
    (fun cost i => eliminate (cost.getD (t.basicColumn i) 0) (t.rows.getD i []) cost)
    (t.paddedCosts costs)

theorem pricedUpTo_succ (t : Tableau ℚ) (costs : List ℚ) (k : ℕ) :
    t.pricedUpTo costs (k + 1)
      = eliminate ((t.pricedUpTo costs k).getD (t.basicColumn k) 0) (t.rows.getD k [])
          (t.pricedUpTo costs k) := by
  rw [pricedUpTo, List.range_succ, List.foldl_append]
  rfl

/-- The rows with their basic columns, in order. -/
theorem Sized.zip_basis_rows (hs : t.Sized) :
    t.basis.zip t.rows
      = (List.range t.height).map fun i => (t.basicColumn i, t.rows.getD i []) := by
  refine List.ext_getElem (by simp [hs.basis_length, height]) fun i hi _ => ?_
  rw [List.length_zip, hs.basis_length, height, min_self] at hi
  rw [List.getElem_zip, List.getElem_map, List.getElem_range, basicColumn,
    List.getD_eq_getElem _ _ (by rw [hs.basis_length]; exact hi), List.getD_eq_getElem _ _ hi]

/-- Pricing goes through the rows in order. -/
theorem Sized.cost_price (hs : t.Sized) (costs : List ℚ) :
    (t.price costs).cost = t.pricedUpTo costs t.height := by
  rw [pricedUpTo, ← List.foldl_map (f := fun i => (t.basicColumn i, t.rows.getD i []))
    (g := fun cost (e : ℕ × List ℚ) => eliminate (cost.getD e.1 0) e.2 cost), ← hs.zip_basis_rows]
  rfl

/-- Pricing keeps the size of the costs. -/
theorem Sized.length_pricedUpTo (hs : t.Sized) {costs : List ℚ} (hc : costs.length ≤ t.width)
    {k : ℕ} (hk : k ≤ t.height) : (t.pricedUpTo costs k).length = t.width := by
  induction k with
  | zero => simp [pricedUpTo, paddedCosts, hc]
  | succ k ih =>
    have hlen := ih (by omega)
    rw [pricedUpTo_succ, length_eliminate ((hs.row_length k hk).trans hlen.symm), hlen]

/-- Pricing in basic form keeps the basic form and prices the costs. -/
theorem BasicForm.price (h : t.BasicForm) {costs : List ℚ} (hc : costs.length ≤ t.rhsColumn) :
    (t.price costs).BasicForm := by
  have hw : costs.length ≤ t.width := hc.trans (Nat.le_succ _)
  exact
    { basis_length := h.basis_length
      row_length := h.row_length
      cost_length := by rw [h.toSized.cost_price, h.toSized.length_pricedUpTo hw le_rfl]; rfl
      basic_lt := h.basic_lt
      unit := h.unit }

/-- A row is priced out by the multiple of it that clears its basic column. -/
theorem Sized.getD_pricedUpTo_succ (hs : t.Sized) {costs : List ℚ} (hc : costs.length ≤ t.width)
    {k : ℕ} (hk : k < t.height) (j : ℕ) : (t.pricedUpTo costs (k + 1)).getD j 0
      = (t.pricedUpTo costs k).getD j 0
        - (t.pricedUpTo costs k).getD (t.basicColumn k) 0 * t.cell k j := by
  rw [pricedUpTo_succ, getD_eliminate
    ((hs.row_length k hk).trans (hs.length_pricedUpTo hc hk.le).symm)]
  rfl

/-- A basic column is cleared with its row, and the rows after it are zero there. -/
theorem BasicForm.getD_pricedUpTo_basicColumn (h : t.BasicForm) {costs : List ℚ}
    (hc : costs.length ≤ t.width) {k i : ℕ} (hk : k ≤ t.height) (hi : i < k) :
    (t.pricedUpTo costs k).getD (t.basicColumn i) 0 = 0 := by
  induction k with
  | zero => omega
  | succ k ih =>
    rw [h.toSized.getD_pricedUpTo_succ hc hk, h.unit k hk i (by omega)]
    rcases Nat.lt_succ_iff_lt_or_eq.mp hi with hlt | rfl
    · rw [if_neg hlt.ne', mul_zero, sub_zero, ih (by omega) hlt]
    · rw [if_pos rfl, mul_one, sub_self]

/-- Rows that a solution satisfies can be priced out. -/
theorem Sized.residual_pricedUpTo (hs : t.Sized) {costs : List ℚ} (hc : costs.length ≤ t.width)
    {z : ℕ → ℚ} (hz : t.Solves z) {k : ℕ} (hk : k ≤ t.height) :
    residual t.rhsColumn (t.pricedUpTo costs k) z
      = residual t.rhsColumn (t.paddedCosts costs) z := by
  induction k with
  | zero => rfl
  | succ k ih =>
    rw [pricedUpTo_succ, residual_eliminate
      ((hs.row_length k hk).trans (hs.length_pricedUpTo hc (by omega)).symm), hz k hk, mul_zero,
      sub_zero, ih (by omega)]

theorem getD_paddedCosts (t : Tableau ℚ) (costs : List ℚ) (j : ℕ) :
    (t.paddedCosts costs).getD j 0 = costs.getD j 0 := by
  rw [paddedCosts]
  by_cases hj : j < costs.length
  · rw [List.getD_append _ _ _ _ hj]
  · rw [List.getD_append_right _ _ _ _ (by omega), List.getD_eq_default costs _ (by omega)]
    simp only [List.getD_eq_getElem?_getD, List.getElem?_replicate]
    split <;> rfl

/-- **Loading costs prices them.** -/
theorem BasicForm.priced_price (h : t.BasicForm) {costs : List ℚ}
    (hc : costs.length ≤ t.rhsColumn) : (t.price costs).Priced fun j => costs.getD j 0 := by
  have hw : costs.length ≤ t.width := hc.trans (Nat.le_succ _)
  refine ⟨fun i hi => ?_, fun z hz => ?_⟩
  · rw [reducedCost, h.toSized.cost_price]
    exact h.getD_pricedUpTo_basicColumn hw le_rfl hi
  · rw [h.toSized.cost_price, rhsColumn_price, h.toSized.residual_pricedUpTo hw hz le_rfl, residual]
    simp only [getD_paddedCosts]
    rw [List.getD_eq_default costs _ hc, sub_zero]

/-! ### The basic point -/

/-- A vector that is zero outside the basic columns, by its values there. -/
def basicVector (t : Tableau ℚ) (r : ℕ → ℚ) (j : ℕ) : ℚ :=
  ∑ i ∈ Finset.range t.height, if t.basicColumn i = j then r i else 0

/-- The basic point: the right sides at the basic columns. -/
def basicPoint (t : Tableau ℚ) : ℕ → ℚ := t.basicVector t.rightSide

/-- A sum against a basic vector is a sum over the rows. -/
theorem BasicForm.sum_mul_basicVector (h : t.BasicForm) (f r : ℕ → ℚ) :
    ∑ j ∈ Finset.range t.rhsColumn, f j * t.basicVector r j
      = ∑ i ∈ Finset.range t.height, f (t.basicColumn i) * r i := by
  simp only [basicVector, Finset.mul_sum, mul_ite, mul_zero]
  rw [Finset.sum_comm]
  refine Finset.sum_congr rfl fun i hi => ?_
  rw [Finset.sum_ite_eq, if_pos]
  exact Finset.mem_range.mpr (h.basic_lt i (Finset.mem_range.mp hi))

/-- The rows at a basic vector read off its values. -/
theorem BasicForm.sum_cell_mul_basicVector (h : t.BasicForm) (r : ℕ → ℚ) {i : ℕ}
    (hi : i < t.height) :
    ∑ j ∈ Finset.range t.rhsColumn, t.cell i j * t.basicVector r j = r i := by
  rw [h.sum_mul_basicVector, Finset.sum_eq_single_of_mem i (Finset.mem_range.mpr hi)]
  · rw [h.unit i hi i hi, if_pos rfl, one_mul]
  · intro k hk hki
    rw [h.unit i hi k (Finset.mem_range.mp hk), if_neg (Ne.symm hki), zero_mul]

/-- The basic point satisfies every row. -/
theorem BasicForm.solves_basicPoint (h : t.BasicForm) : t.Solves t.basicPoint := by
  intro i hi
  exact sub_eq_zero.mpr (h.sum_cell_mul_basicVector t.rightSide hi)

/-- A basic vector at a basic column. -/
theorem BasicForm.basicVector_basicColumn (h : t.BasicForm) (r : ℕ → ℚ) {i : ℕ}
    (hi : i < t.height) : t.basicVector r (t.basicColumn i) = r i := by
  rw [basicVector, Finset.sum_eq_single_of_mem i (Finset.mem_range.mpr hi), if_pos rfl]
  intro k hk hki
  exact if_neg fun heq => hki (h.basicColumn_inj (Finset.mem_range.mp hk) hi heq)

/-- Nonnegative values make a nonnegative vector. -/
theorem basicVector_nonneg {r : ℕ → ℚ} (hr : ∀ i < t.height, 0 ≤ r i) (j : ℕ) :
    0 ≤ t.basicVector r j := by
  refine Finset.sum_nonneg fun i hi => ?_
  split
  · exact hr i (Finset.mem_range.mp hi)
  · exact le_rfl

/-- The costs of a basic vector through priced costs: only basic columns count, and they cost
nothing. -/
theorem BasicForm.sum_reducedCost_mul_basicVector (h : t.BasicForm) {c : ℕ → ℚ}
    (hp : t.Priced c) (r : ℕ → ℚ) :
    ∑ j ∈ Finset.range t.rhsColumn, t.reducedCost j * t.basicVector r j = 0 := by
  rw [h.sum_mul_basicVector]
  exact Finset.sum_eq_zero fun i hi => by
    rw [hp.basic_zero i (Finset.mem_range.mp hi), zero_mul]

/-- The costs of the basic point are the negated last cell of the cost row. -/
theorem BasicForm.cost_basicPoint (h : t.BasicForm) {c : ℕ → ℚ} (hp : t.Priced c) :
    ∑ j ∈ Finset.range t.rhsColumn, c j * t.basicPoint j = -t.reducedCost t.rhsColumn := by
  rw [← hp.objective _ h.solves_basicPoint, residual]
  have hz := h.sum_reducedCost_mul_basicVector hp t.rightSide
  simp only [reducedCost] at hz
  rw [basicPoint, hz, zero_sub, reducedCost]

/-- **Nonnegative reduced costs make the basic point the cheapest** among the solutions that are
nonnegative at the allowed columns and zero at the others. -/
theorem BasicForm.cost_basicPoint_le (h : t.BasicForm) {c : ℕ → ℚ} (hp : t.Priced c)
    {allowed : ℕ} (hcost : ∀ j < allowed, 0 ≤ t.reducedCost j) {z : ℕ → ℚ} (hz : t.Solves z)
    (hnonneg : ∀ j < allowed, 0 ≤ z j) (hzero : ∀ j, allowed ≤ j → z j = 0) :
    ∑ j ∈ Finset.range t.rhsColumn, c j * t.basicPoint j
      ≤ ∑ j ∈ Finset.range t.rhsColumn, c j * z j := by
  rw [h.cost_basicPoint hp, ← hp.objective z hz, residual, ← zero_sub]
  refine sub_le_sub_right (Finset.sum_nonneg fun j _ => ?_) _
  by_cases hj : j < allowed
  · exact mul_nonneg (hcost j hj) (hnonneg j hj)
  · rw [hzero j (not_lt.mp hj), mul_zero]

/-! ### Rays -/

/-- The point reached from the basic point when a column grows to `s`. -/
def rayPoint (t : Tableau ℚ) (col : ℕ) (s : ℚ) (j : ℕ) : ℚ :=
  (if j = col then s else 0) + t.basicVector (fun i => t.rightSide i - s * t.cell i col) j

/-- Points on a ray satisfy every row. -/
theorem BasicForm.solves_rayPoint (h : t.BasicForm) (hcol : col < t.rhsColumn) (s : ℚ) :
    t.Solves (t.rayPoint col s) := by
  intro i hi
  have hsum : ∑ j ∈ Finset.range t.rhsColumn, t.cell i j * t.rayPoint col s j
      = t.cell i col * s + (t.rightSide i - s * t.cell i col) := by
    simp only [rayPoint, mul_add, Finset.sum_add_distrib, mul_ite, mul_zero]
    rw [h.sum_cell_mul_basicVector _ hi, Finset.sum_ite_eq', if_pos (Finset.mem_range.mpr hcol)]
  rw [residual]
  refine sub_eq_zero.mpr (hsum.trans ?_)
  rw [mul_comm, add_sub_cancel]
  rfl

/-- The costs along a ray change by the reduced cost of the column. -/
theorem BasicForm.cost_rayPoint (h : t.BasicForm) {c : ℕ → ℚ} (hp : t.Priced c)
    (hcol : col < t.rhsColumn) (s : ℚ) :
    ∑ j ∈ Finset.range t.rhsColumn, c j * t.rayPoint col s j
      = t.reducedCost col * s - t.reducedCost t.rhsColumn := by
  rw [← hp.objective _ (h.solves_rayPoint hcol s), residual]
  have hz := h.sum_reducedCost_mul_basicVector hp fun i => t.rightSide i - s * t.cell i col
  simp only [reducedCost] at hz ⊢
  simp only [rayPoint, mul_add, Finset.sum_add_distrib, mul_ite, mul_zero]
  rw [hz, add_zero, Finset.sum_ite_eq', if_pos (Finset.mem_range.mpr hcol)]

/-- Along a column without positive cells all coordinates stay nonnegative. -/
theorem rayPoint_nonneg (hrhs : ∀ i < t.height, 0 ≤ t.rightSide i)
    (hcells : ∀ i < t.height, t.cell i col ≤ 0) {s : ℚ} (hs : 0 ≤ s) (j : ℕ) :
    0 ≤ t.rayPoint col s j := by
  refine add_nonneg (by split <;> first | exact hs | exact le_rfl) ?_
  refine basicVector_nonneg (fun i hi => ?_) j
  have hmul : s * t.cell i col ≤ 0 := mul_nonpos_of_nonneg_of_nonpos hs (hcells i hi)
  linarith [hrhs i hi]

/-- **A ray falls without limit**: with a negative reduced cost the costs along it pass every
bound. -/
theorem BasicForm.exists_cost_rayPoint_lt (h : t.BasicForm) {c : ℕ → ℚ} (hp : t.Priced c)
    (hcol : col < t.rhsColumn) (hneg : t.reducedCost col < 0) (bound : ℚ) :
    ∃ s, 0 ≤ s ∧ ∑ j ∈ Finset.range t.rhsColumn, c j * t.rayPoint col s j < bound := by
  set k := t.reducedCost col with hk
  set d := |bound + t.reducedCost t.rhsColumn| + 1 with hd
  have hdpos : 0 < d := by positivity
  refine ⟨d / -k, div_nonneg hdpos.le (neg_nonneg.mpr hneg.le), ?_⟩
  have hmul : k * (d / -k) = -d := by
    rw [div_neg, mul_neg, mul_div_cancel₀ _ hneg.ne]
  rw [h.cost_rayPoint hp hcol, ← hk, hmul]
  have habs := neg_abs_le (bound + t.reducedCost t.rhsColumn)
  linarith

end Tableau

end RelationalLP
