import Mathlib
import RelationalLP.Proofs.Collections.Traversal
import RelationalLP.Proofs.Solving.FirstTableau
import RelationalLP.Proofs.Solving.PivotChoice

/-! # The verdicts of the simplex method

Every tableau of a run has the solutions of the first one. Phase one is bounded below by zero and
ends either above zero, and then no point is feasible, or at zero, and then every artificial column
that is still basic has right side zero. Driving out leaves an artificial column basic only in rows
without structural cells, and phase two keeps those rows idle. So the basic points and the rays of
phase two are structural: they are feasible points of the program. -/

namespace RelationalLP

namespace Tableau

/-! ### Tableaux reached by pivots -/

/-- **A tableau reached from a first one**: in basic form, of the same size, with the same
solutions. -/
structure Reached (first t : Tableau ℚ) : Prop where
  /-- The basic columns are unit columns. -/
  basicForm : t.BasicForm
  /-- It has as many rows. -/
  height_eq : t.height = first.height
  /-- It has as many structural columns. -/
  structural_eq : t.structural = first.structural
  /-- Its rows have the same solutions. -/
  solves_iff : ∀ z, t.Solves z ↔ first.Solves z

variable {first t : Tableau ℚ} {row col : ℕ} {c : ℕ → ℚ}

theorem Reached.rhsColumn_eq (h : Reached first t) : t.rhsColumn = first.rhsColumn := by
  rw [Tableau.rhsColumn_eq, Tableau.rhsColumn_eq, h.structural_eq, h.height_eq]

theorem BasicForm.reached (h : t.BasicForm) : Reached t t := ⟨h, rfl, rfl, fun _ => Iff.rfl⟩

/-- A pivot on a nonzero cell keeps the solutions. -/
theorem Reached.pivot (h : Reached first t) (hrow : row < t.height) (hcol : col < t.rhsColumn)
    (hne : t.cell row col ≠ 0) : Reached first (t.pivot row col) where
  basicForm := h.basicForm.pivot hrow hcol hne
  height_eq := (height_pivot t row col).trans h.height_eq
  structural_eq := (structural_pivot t row col).trans h.structural_eq
  solves_iff := fun z => (h.basicForm.solves_pivot_iff hrow hne z).trans (h.solves_iff z)

/-- Pricing keeps the rows. -/
theorem Reached.price (h : Reached first t) {costs : List ℚ} (hc : costs.length ≤ t.rhsColumn) :
    Reached first (t.price costs) where
  basicForm := h.basicForm.price hc
  height_eq := h.height_eq
  structural_eq := h.structural_eq
  solves_iff := h.solves_iff

/-- **A tableau within a phase**: reached from the first one, with priced costs and nonnegative right
sides. -/
structure InPhase (first : Tableau ℚ) (c : ℕ → ℚ) (t : Tableau ℚ) : Prop
    extends Reached first t where
  /-- The costs are priced. -/
  priced : t.Priced c
  /-- No right side is negative. -/
  rightSide_nonneg : ∀ i < t.height, 0 ≤ t.rightSide i

/-- What the choice of a pivot says: the column is allowed, the row is the best one. -/
theorem Reached.chosen (h : Reached first t) {allowed : ℕ} (hallowed : allowed ≤ t.rhsColumn)
    (hcol : t.entering? 0 allowed = some col) :
    col < allowed ∧ t.reducedCost col < 0 := by
  obtain ⟨hlt, hneg, -⟩ := entering?_eq_some
    (by rw [h.basicForm.cost_length, width_eq]; omega) hcol
  rw [neg_zero] at hneg
  exact ⟨hlt, hneg⟩

/-- Without an entering column every allowed reduced cost is nonnegative. -/
theorem Reached.reducedCost_nonneg (h : Reached first t) {allowed : ℕ}
    (hallowed : allowed ≤ t.rhsColumn) (hnone : t.entering? 0 allowed = none) :
    ∀ j < allowed, 0 ≤ t.reducedCost j := by
  intro j hj
  have hle := entering?_eq_none (by rw [h.basicForm.cost_length, width_eq]; omega) hnone hj
  rwa [neg_zero] at hle

/-- **A chosen pivot stays within the phase.** -/
theorem InPhase.pivot (h : InPhase first c t) (hcol : col < t.rhsColumn)
    (hrow : t.leaving? 0 col = some row) : InPhase first c (t.pivot row col) := by
  have hbest := bestUpTo_of_leaving?_eq_some hrow
  exact
    { toReached := h.toReached.pivot hbest.row_lt hcol hbest.cell_pos.ne'
      priced := h.priced.pivot h.basicForm hbest.row_lt hbest.cell_pos.ne'
      rightSide_nonneg := fun i hi => h.basicForm.rightSide_pivot_nonneg hbest
        h.rightSide_nonneg ((height_pivot t row col) ▸ hi) }

/-! ### Phase one -/

/-- The costs of phase one as a function of the column. -/
def phaseOneCosts (t : Tableau ℚ) (j : ℕ) : ℚ := t.artificialCosts.getD j 0

theorem phaseOneCosts_nonneg (t : Tableau ℚ) (j : ℕ) : 0 ≤ t.phaseOneCosts j := by
  rw [phaseOneCosts, artificialCosts, List.getD_eq_getElem?_getD, List.getElem?_append]
  split
  · rw [List.getElem?_replicate]
    split <;> simp
  · rw [List.getElem?_replicate]
    split <;> simp

theorem phaseOneCosts_of_lt {j : ℕ} (hj : j < t.structural) : t.phaseOneCosts j = 0 := by
  rw [phaseOneCosts, artificialCosts,
    List.getD_append _ _ _ _ (by rw [List.length_replicate]; exact hj), List.getD_replicate _ hj]

theorem phaseOneCosts_add {i : ℕ} (hi : i < t.height) : t.phaseOneCosts (t.structural + i) = 1 := by
  rw [phaseOneCosts, artificialCosts,
    List.getD_append_right _ _ _ _ (by rw [List.length_replicate]; exact Nat.le_add_right _ _),
    List.length_replicate, Nat.add_sub_cancel_left, ← height, List.getD_replicate _ hi]

theorem length_artificialCosts (t : Tableau ℚ) : t.artificialCosts.length = t.rhsColumn := by
  simp [artificialCosts, rhsColumn]

/-- The costs of phase one are the sum of the artificial coordinates. -/
theorem sum_phaseOneCosts (t : Tableau ℚ) (z : ℕ → ℚ) :
    ∑ j ∈ Finset.range t.rhsColumn, t.phaseOneCosts j * z j
      = ∑ i ∈ Finset.range t.height, z (t.structural + i) := by
  rw [rhsColumn_eq, Finset.sum_range_add, Finset.sum_eq_zero, zero_add]
  · exact Finset.sum_congr rfl fun i hi => by
      rw [phaseOneCosts_add (Finset.mem_range.mp hi), one_mul]
  · intro j hj
    rw [phaseOneCosts_of_lt (Finset.mem_range.mp hj), zero_mul]

/-- Phase one never falls without limit: its costs are nonnegative at every nonnegative solution. -/
theorem InPhase.leaving?_ne_none (h : InPhase first first.phaseOneCosts t)
    (hcol : t.entering? 0 t.rhsColumn = some col) : t.leaving? 0 col ≠ none := by
  intro hnone
  obtain ⟨hlt, hneg⟩ := h.chosen le_rfl hcol
  obtain ⟨s, hs, hbelow⟩ := h.basicForm.exists_cost_rayPoint_lt h.priced hlt hneg 0
  refine absurd hbelow (not_lt.mpr (Finset.sum_nonneg fun j _ => ?_))
  exact mul_nonneg (phaseOneCosts_nonneg first j)
    (rayPoint_nonneg h.rightSide_nonneg (fun i hi => leaving?_eq_none hnone hi) hs j)

/-- With tolerance zero the test after phase one asks whether its costs are positive. -/
theorem isInfeasible_zero (t : Tableau ℚ) :
    t.isInfeasible 0 = true ↔ 0 < -t.reducedCost t.rhsColumn := by
  rw [isInfeasible, zero_mul, zero_mul, decide_eq_true_eq]
  rfl

/-- Structural solutions cost nothing in phase one. -/
theorem IsStructural.sum_phaseOneCosts_eq_zero {z : ℕ → ℚ} (hz : IsStructural first z) :
    ∑ j ∈ Finset.range first.rhsColumn, first.phaseOneCosts j * z j = 0 := by
  rw [sum_phaseOneCosts]
  exact Finset.sum_eq_zero fun i _ => hz.zero _ (Nat.le_add_right _ _)

/-- **A positive end of phase one excludes structural solutions.** -/
theorem InPhase.not_solves_of_isInfeasible (h : InPhase first first.phaseOneCosts t)
    (hend : ∀ j < t.rhsColumn, 0 ≤ t.reducedCost j) (hinf : t.isInfeasible 0 = true) {z : ℕ → ℚ}
    (hz : IsStructural first z) : ¬ first.Solves z := by
  intro hsolves
  have hpos := t.isInfeasible_zero.mp hinf
  rw [← h.basicForm.cost_basicPoint h.priced] at hpos
  have hle := h.basicForm.cost_basicPoint_le h.priced hend ((h.solves_iff z).mpr hsolves)
    (fun j _ => hz.nonneg j)
    (fun j hj => hz.zero j (by rw [h.rhsColumn_eq, Tableau.rhsColumn_eq] at hj; omega))
  rw [h.rhsColumn_eq, hz.sum_phaseOneCosts_eq_zero, ← h.rhsColumn_eq] at hle
  exact absurd hpos (not_lt.mpr hle)

/-- The rows in which an artificial column is basic have right side zero. -/
def Balanced (t : Tableau ℚ) : Prop :=
  ∀ i < t.height, t.structural ≤ t.basicColumn i → t.rightSide i = 0

/-- **Phase one ends at zero with balanced rows.** -/
theorem InPhase.balanced (h : InPhase first first.phaseOneCosts t)
    (hfeasible : ¬ t.isInfeasible 0 = true) : t.Balanced := by
  intro i hi hart
  rw [isInfeasible_zero, ← h.basicForm.cost_basicPoint h.priced, not_lt, h.rhsColumn_eq,
    sum_phaseOneCosts] at hfeasible
  have hnonneg := basicVector_nonneg h.rightSide_nonneg
  have hlt := h.basicForm.basic_lt i hi
  obtain ⟨k, hk⟩ := Nat.exists_eq_add_of_le hart
  rw [Tableau.rhsColumn_eq, hk, h.height_eq] at hlt
  have hterm := (Finset.sum_eq_zero_iff_of_nonneg fun k _ => hnonneg (first.structural + k)).mp
    (le_antisymm hfeasible (Finset.sum_nonneg fun k _ => hnonneg _)) k
    (Finset.mem_range.mpr (by omega))
  rwa [← h.structural_eq, ← hk, h.basicForm.basicVector_basicColumn _ hi] at hterm

/-! ### Driving out the artificial columns -/

/-- **Idle rows**: up to row `k`, a row in which an artificial column is basic has no structural
cell. -/
def IdleUpTo (t : Tableau ℚ) (k : ℕ) : Prop :=
  ∀ i < k, t.structural ≤ t.basicColumn i → ∀ j < t.structural, t.cell i j = 0

/-- A tableau after phase one whose first `k` rows were driven out. -/
structure Drained (first : Tableau ℚ) (k : ℕ) (t : Tableau ℚ) : Prop extends Reached first t where
  /-- No right side is negative. -/
  rightSide_nonneg : ∀ i < t.height, 0 ≤ t.rightSide i
  /-- Artificial columns are basic at zero. -/
  balanced : t.Balanced
  /-- They are basic in rows without structural cells. -/
  idle : t.IdleUpTo k

/-- A feasible phase one ends with balanced rows, none of them driven out. -/
theorem InPhase.drained (h : InPhase first first.phaseOneCosts t)
    (hfeasible : ¬ t.isInfeasible 0 = true) : Drained first 0 t :=
  ⟨h.toReached, h.rightSide_nonneg, h.balanced hfeasible, fun i hi => absurd hi i.not_lt_zero⟩

/-- A pivot in a row with right side zero keeps all right sides. -/
theorem Sized.rightSide_pivot_of_zero (hs : t.Sized) (hrow : row < t.height)
    (hzero : t.rightSide row = 0) {i : ℕ} (hi : i < t.height) :
    (t.pivot row col).rightSide i = t.rightSide i := by
  rw [rightSide, rhsColumn_pivot, hs.cell_pivot hrow hi]
  rw [rightSide] at hzero
  rw [hzero, zero_div, mul_zero, sub_zero]
  split
  · rename_i hir
    rw [hir, rightSide, hzero]
  · rfl

/-- A row without a cell in the pivot column keeps its cells. -/
theorem Sized.cell_pivot_of_zero (hs : t.Sized) (hrow : row < t.height) {i : ℕ}
    (hi : i < t.height) (hir : i ≠ row) (hzero : t.cell i col = 0) (j : ℕ) :
    (t.pivot row col).cell i j = t.cell i j := by
  rw [hs.cell_pivot hrow hi, if_neg hir, hzero, zero_mul, sub_zero]

/-- **A structural pivot keeps rows idle.** -/
theorem BasicForm.idleUpTo_pivot (h : t.BasicForm) {k : ℕ} (hk : k ≤ t.height)
    (hidle : t.IdleUpTo k) (hrow : row < t.height) (hcol : col < t.structural) :
    (t.pivot row col).IdleUpTo k := by
  intro i hi hart j hj
  rw [structural_pivot] at hart hj
  rw [basicColumn_pivot t row col (by rw [h.basis_length]; exact hrow)] at hart
  split at hart
  · omega
  · rename_i hir
    rw [h.cell_pivot_of_zero hrow (by omega) hir (hidle i hi hart col hcol)]
    exact hidle i hi hart j hj

/-- A row that is idle is driven out. -/
theorem Drained.succ {k : ℕ} (h : Drained first k t)
    (hrow : t.structural ≤ t.basicColumn k → ∀ j < t.structural, t.cell k j = 0) :
    Drained first (k + 1) t := by
  refine ⟨h.toReached, h.rightSide_nonneg, h.balanced, fun i hi hart => ?_⟩
  rcases Nat.lt_succ_iff_lt_or_eq.mp hi with hlt | rfl
  · exact h.idle i hlt hart
  · exact hrow hart

/-- A pivot in a structural column drives out a row in which an artificial column is basic. -/
theorem Drained.pivot {k : ℕ} (h : Drained first k t) (hk : k < t.height)
    (hart : t.structural ≤ t.basicColumn k) (hcol : col < t.structural) (hne : t.cell k col ≠ 0) :
    Drained first (k + 1) (t.pivot k col) := by
  have hstruct := t.rhsColumn_eq
  have hzero : t.rightSide k = 0 := h.balanced k hk hart
  -- the right side of the row is zero, so the pivot moves no other
  have hside : ∀ i < t.height, (t.pivot k col).rightSide i = t.rightSide i := fun i hi =>
    h.basicForm.rightSide_pivot_of_zero hk hzero hi
  have hbasic : ∀ i, t.structural ≤ (t.pivot k col).basicColumn i →
      i ≠ k ∧ t.structural ≤ t.basicColumn i := by
    intro i hi
    rw [basicColumn_pivot t k col (by rw [h.basicForm.basis_length]; exact hk)] at hi
    split at hi
    · omega
    · rename_i hik
      exact ⟨hik, hi⟩
  refine ⟨h.toReached.pivot hk (by omega) hne, fun i hi => ?_, fun i hi hb => ?_,
    fun i hi hb => ?_⟩
  · rw [height_pivot] at hi
    rw [hside i hi]
    exact h.rightSide_nonneg i hi
  · rw [height_pivot] at hi
    rw [structural_pivot] at hb
    rw [hside i hi]
    exact h.balanced i hi (hbasic i hb).2
  · rw [structural_pivot] at hb
    have hik := (hbasic i hb).1
    exact h.basicForm.idleUpTo_pivot hk.le h.idle hk hcol i (by omega) hb

/-- Driving out a row empties it or makes a structural column basic in it. -/
theorem Drained.driveOut {k : ℕ} (h : Drained first k t) (hk : k < t.height) :
    Drained first (k + 1) (t.driveOut 0 k) := by
  have hlen : (t.rows.getD k []).length = t.rhsColumn + 1 := h.basicForm.row_length k hk
  have hstruct := t.rhsColumn_eq
  have hcell : ∀ j (hj : j < (t.rows.getD k []).length), (t.rows.getD k [])[j] = t.cell k j :=
    fun j hj => (List.getD_eq_getElem _ _ hj).symm
  rw [Tableau.driveOut]
  split
  · rename_i hlt
    exact h.succ fun hart => absurd hlt (not_lt.mpr hart)
  · rename_i hart
    have hart : t.structural ≤ t.basicColumn k := not_lt.mp hart
    -- a row without structural cells stays, and any other one has a cell to pivot on
    cases hfind : ((t.rows.getD k []).take t.structural).findIdx? fun v =>
        decide (0 < Scalar.abs v) with
    | none =>
      refine h.succ fun _ j hj => ?_
      have hmem : t.cell k j ∈ (t.rows.getD k []).take t.structural := by
        rw [← hcell j (by omega), List.mem_iff_getElem]
        exact ⟨j, by rw [List.length_take]; omega, by rw [List.getElem_take]⟩
      have hzero := List.findIdx?_eq_none_iff.mp hfind _ hmem
      rw [Scalar.abs_rat, decide_eq_false_iff_not, abs_pos, not_not] at hzero
      exact hzero
    | some j =>
      obtain ⟨hlt, hne, -⟩ := List.findIdx?_eq_some_iff_getElem.mp hfind
      rw [List.length_take, hlen, min_eq_left (by omega)] at hlt
      rw [List.getElem_take, hcell, Scalar.abs_rat, decide_eq_true_eq, abs_pos] at hne
      exact h.pivot hk hart hlt hne

/-- **After driving out every row is idle.** -/
theorem Drained.foldl_driveOut (h : Drained first 0 t) {k : ℕ} (hk : k ≤ t.height) :
    Drained first k ((List.range k).foldl (Tableau.driveOut 0) t)
      ∧ ((List.range k).foldl (Tableau.driveOut 0) t).height = t.height := by
  have hheight : ∀ {s : Tableau ℚ} {k}, Drained first k s → s.height = t.height :=
    fun hs => hs.height_eq.trans h.height_eq.symm
  suffices hd : Drained first k ((List.range k).foldl (Tableau.driveOut 0) t) from
    ⟨hd, hheight hd⟩
  induction k with
  | zero => exact h
  | succ k ih =>
    rw [List.range_succ, List.foldl_append]
    have hprev := ih (by omega)
    exact hprev.driveOut (by rw [hheight hprev]; omega)

/-! ### Phase two -/

/-- **A tableau within phase two**: its artificial columns are basic at zero in idle rows. -/
structure InPhaseTwo (first : Tableau ℚ) (c : ℕ → ℚ) (t : Tableau ℚ) : Prop
    extends InPhase first c t where
  /-- Artificial columns are basic at zero. -/
  balanced : t.Balanced
  /-- They are basic in rows without structural cells. -/
  idle : t.IdleUpTo t.height

/-- Phase two starts after driving out. -/
theorem Drained.inPhaseTwo (h : Drained first t.height t) {costs : List ℚ}
    (hc : costs.length ≤ t.rhsColumn) :
    InPhaseTwo first (fun j => costs.getD j 0) (t.price costs) where
  toReached := h.toReached.price hc
  priced := h.basicForm.priced_price hc
  rightSide_nonneg := h.rightSide_nonneg
  balanced := h.balanced
  idle := h.idle

/-- **A chosen structural pivot stays within phase two.** -/
theorem InPhaseTwo.pivot (h : InPhaseTwo first c t) (hcol : col < t.structural)
    (hrow : t.leaving? 0 col = some row) : InPhaseTwo first c (t.pivot row col) := by
  obtain ⟨hlt, -⟩ := leaving?_eq_some hrow
  refine ⟨h.toInPhase.pivot (by rw [Tableau.rhsColumn_eq]; omega) hrow, fun i hi hb => ?_, ?_⟩
  · rw [height_pivot] at hi
    rw [structural_pivot, basicColumn_pivot t row col (by rw [h.basicForm.basis_length]; exact hlt)]
      at hb
    split at hb
    · omega
    · rename_i hir
      rw [rightSide, rhsColumn_pivot,
        h.basicForm.cell_pivot_of_zero hlt hi hir (h.idle i hi hb col hcol)]
      exact h.balanced i hi hb
  · rw [height_pivot]
    exact h.basicForm.idleUpTo_pivot le_rfl h.idle hlt hcol

/-- A basic vector that is nonnegative, and zero in idle rows, is structural. -/
theorem isStructural_basicVector {r : ℕ → ℚ} (hr : ∀ i < t.height, 0 ≤ r i)
    (hzero : ∀ i < t.height, t.structural ≤ t.basicColumn i → r i = 0) :
    IsStructural t (t.basicVector r) where
  nonneg := basicVector_nonneg hr
  zero := by
    intro j hj
    refine Finset.sum_eq_zero fun i hi => ?_
    split
    · rename_i heq
      exact hzero i (Finset.mem_range.mp hi) (by rw [heq]; exact hj)
    · rfl

theorem IsStructural.of_structural_eq {z : ℕ → ℚ} (hz : IsStructural t z)
    (h : t.structural = first.structural) : IsStructural first z :=
  ⟨hz.nonneg, fun j hj => hz.zero j (by rw [h]; exact hj)⟩

/-- The basic points of phase two are structural. -/
theorem InPhaseTwo.isStructural_basicPoint (h : InPhaseTwo first c t) :
    IsStructural first t.basicPoint :=
  (isStructural_basicVector h.rightSide_nonneg h.balanced).of_structural_eq h.structural_eq

/-- The rays of phase two are structural. -/
theorem InPhaseTwo.isStructural_rayPoint (h : InPhaseTwo first c t) (hcol : col < t.structural)
    (hnone : t.leaving? 0 col = none) {s : ℚ} (hs : 0 ≤ s) :
    IsStructural first (t.rayPoint col s) := by
  refine IsStructural.of_structural_eq (t := t) ⟨rayPoint_nonneg h.rightSide_nonneg
    (fun i hi => leaving?_eq_none hnone hi) hs, fun j hj => ?_⟩ h.structural_eq
  have hbasic : t.basicVector (fun i => t.rightSide i - s * t.cell i col) j = 0 := by
    refine Finset.sum_eq_zero fun i hi => ?_
    have hi := Finset.mem_range.mp hi
    split
    · rename_i heq
      have hart : t.structural ≤ t.basicColumn i := by rw [heq]; exact hj
      simp only [h.balanced i hi hart, h.idle i hi hart col hcol, mul_zero, sub_zero]
    · rfl
  rw [rayPoint, if_neg (by omega), hbasic, add_zero]

/-! ### The point of a tableau -/

/-- The loop that looks for the row in which a column is basic sums up at most one right side. -/
theorem BasicForm.foldl_rightSide (h : t.BasicForm) (j : ℕ) {k : ℕ} (hk : k ≤ t.height) :
    (List.range k).foldl (fun v i => if t.basicColumn i = j then t.rightSide i else v) 0
      = ∑ i ∈ Finset.range k, if t.basicColumn i = j then t.rightSide i else 0 := by
  induction k with
  | zero => rfl
  | succ k ih =>
    rw [List.range_succ, List.foldl_append, List.foldl_cons, List.foldl_nil, ih (by omega),
      Finset.sum_range_succ]
    split
    · rename_i heq
      -- the column is basic in no earlier row
      rw [Finset.sum_eq_zero, zero_add]
      intro i hi
      have hi := Finset.mem_range.mp hi
      rw [if_neg]
      intro hij
      have hik := h.basicColumn_inj (by omega) (by omega) (hij.trans heq.symm)
      omega
    · rw [add_zero]

/-- The value of a column is its coordinate in the basic point. -/
theorem BasicForm.value_eq_basicPoint (h : t.BasicForm) (j : ℕ) : t.value j = t.basicPoint j := by
  rw [value, h.zip_basis_rows, List.foldl_map]
  exact h.foldl_rightSide j le_rfl

theorem BasicForm.point_eq_pointOf (h : t.BasicForm) (n : ℕ) :
    t.point n = pointOf n t.basicPoint :=
  List.map_congr_left fun j _ => by rw [h.value_eq_basicPoint, h.value_eq_basicPoint]

end Tableau

/-! ### Verdicts -/

/-- **What an answer says about a program**: the point is feasible with the least objective, or no
point is feasible, or the objective of feasible points has no lower bound. -/
def Outcome.Correct (lp : LinearProgram ℚ) : Outcome ℚ → Prop
  | .optimal x v => lp.Feasible x ∧ v = lp.objective x
      ∧ ∀ y, lp.Feasible y → lp.objective x ≤ lp.objective y
  | .infeasible => lp.Infeasible
  | .unbounded => lp.Unbounded

namespace Simplex

open Tableau

variable {lp : LinearProgram ℚ} {t : Tableau ℚ} {options : SimplexOptions ℚ}

/-- The costs of phase two as a function of the column. -/
def phaseTwoCosts (lp : LinearProgram ℚ) (j : ℕ) : ℚ := (structuralCosts lp).getD j 0

theorem length_structuralCosts (lp : LinearProgram ℚ) :
    (structuralCosts lp).length = (ofProgram lp).structural := by
  rw [structural_ofProgram]
  simp [structuralCosts, LinearProgram.columnCount]
  omega

/-- Phase one starts within its phase. -/
theorem inPhase_ofProgram (lp : LinearProgram ℚ) : InPhase (ofProgram lp)
    (ofProgram lp).phaseOneCosts ((ofProgram lp).price (ofProgram lp).artificialCosts) where
  toReached := (basicForm_ofProgram lp).reached.price (length_artificialCosts _).le
  priced := (basicForm_ofProgram lp).priced_price (length_artificialCosts _).le
  rightSide_nonneg := fun i hi =>
    rightSide_ofProgram_nonneg (by rwa [height_price, height_ofProgram] at hi)

/-- Phase two starts within its phase, after phase one ended at zero. -/
theorem inPhaseTwo_of_drained (h : Drained (ofProgram lp) 0 t) :
    InPhaseTwo (ofProgram lp) (phaseTwoCosts lp)
      (((List.range t.rows.length).foldl (driveOut 0) t).price (structuralCosts lp)) := by
  obtain ⟨hdrained, hheight⟩ := h.foldl_driveOut le_rfl
  refine Drained.inPhaseTwo (by rw [← height, hheight]; exact hdrained) ?_
  rw [length_structuralCosts, Tableau.rhsColumn_eq, ← height, hdrained.structural_eq]
  exact Nat.le_add_right _ _

/-- The costs of phase two at a vector are the objective of its point. -/
theorem sum_phaseTwoCosts (h : Reached (ofProgram lp) t) (z : ℕ → ℚ) :
    ∑ j ∈ Finset.range t.rhsColumn, phaseTwoCosts lp j * z j
      = lp.objective (pointOf lp.columnCount z) :=
  sum_structuralCosts lp (by rw [← h.structural_eq, Tableau.rhsColumn_eq]; omega) z

/-- The optimal end of phase two is correct. -/
theorem correct_optimal (hlp : lp.WellFormed)
    (h : InPhaseTwo (ofProgram lp) (phaseTwoCosts lp) t)
    (hnone : t.entering? 0 t.structural = none) :
    (Outcome.optimal (t.point lp.columnCount)
      (lp.objective (t.point lp.columnCount))).Correct lp := by
  rw [h.basicForm.point_eq_pointOf]
  refine ⟨feasible_pointOf hlp h.isStructural_basicPoint
    ((h.solves_iff _).mp h.basicForm.solves_basicPoint), rfl, fun y hy => ?_⟩
  obtain ⟨hz, hsolves⟩ := isStructural_vectorOf hlp hy
  have hlen : y.length = lp.columnCount := hy.1
  have hle := h.basicForm.cost_basicPoint_le h.priced
    (h.reducedCost_nonneg (by rw [Tableau.rhsColumn_eq]; omega) hnone)
    ((h.solves_iff _).mpr hsolves) (fun j _ => hz.nonneg j)
    (fun j hj => hz.zero j (by rw [← h.structural_eq]; exact hj))
  rwa [sum_phaseTwoCosts h.toReached, sum_phaseTwoCosts h.toReached, pointOf_vectorOf hlen] at hle

/-- The unbounded end of phase two is correct. -/
theorem correct_unbounded (hlp : lp.WellFormed)
    (h : InPhaseTwo (ofProgram lp) (phaseTwoCosts lp) t) {col : ℕ}
    (hcol : t.entering? 0 t.structural = some col) (hnone : t.leaving? 0 col = none) :
    lp.Unbounded := by
  have hstruct : t.structural ≤ t.rhsColumn := by rw [Tableau.rhsColumn_eq]; omega
  obtain ⟨hlt, hneg⟩ := h.chosen hstruct hcol
  have hray : ∀ bound, ∃ x, lp.Feasible x ∧ lp.objective x < bound := by
    intro bound
    obtain ⟨s, hs, hbelow⟩ :=
      h.basicForm.exists_cost_rayPoint_lt h.priced (hlt.trans_le hstruct) hneg bound
    rw [sum_phaseTwoCosts h.toReached] at hbelow
    exact ⟨_, feasible_pointOf hlp (h.isStructural_rayPoint hlt hnone hs)
      ((h.solves_iff _).mp (h.basicForm.solves_rayPoint (hlt.trans_le hstruct) s)), hbelow⟩
  obtain ⟨x, hx, -⟩ := hray 0
  exact ⟨⟨x, hx⟩, hray⟩

/-- **Phase two answers correctly** from a tableau in which artificial columns are basic at zero. -/
theorem correct_of_phaseTwo (htol : options.tolerance = 0) (hlp : lp.WellFormed)
    (h : Drained (ofProgram lp) 0 t) {left : ℕ} {o : Outcome ℚ}
    (ho : phaseTwo options lp left t = .ok o) : o.Correct lp := by
  have hstart := inPhaseTwo_of_drained h
  rw [phaseTwo, htol] at ho
  set start := ((List.range t.rows.length).foldl (driveOut 0) t).price (structuralCosts lp)
  have hend := reaches_optimize 0 t.structural
    (P := fun s => InPhaseTwo (ofProgram lp) (phaseTwoCosts lp) s ∧ s.structural = t.structural)
    (fun s row col hs hcol hrow => by
      rw [← hs.2] at hcol
      obtain ⟨hlt, -⟩ := hs.1.chosen (by rw [Tableau.rhsColumn_eq]; omega) hcol
      exact ⟨hs.1.pivot hlt hrow, hs.2⟩)
    left _ ⟨hstart, hstart.structural_eq.trans h.structural_eq.symm⟩
  revert ho hend
  cases optimize 0 t.structural left start with
  | optimal s left =>
    rintro ho ⟨⟨hs, hstruct⟩, hnone⟩
    obtain rfl := Except.ok.inj ho
    exact correct_optimal hlp hs (by rw [hstruct]; exact hnone)
  | unbounded s left =>
    rintro ho ⟨⟨hs, hstruct⟩, col, hcol, hnone⟩
    obtain rfl := Except.ok.inj ho
    exact correct_unbounded hlp hs (by rw [hstruct]; exact hcol) hnone
  | exhausted =>
    intro ho _
    cases ho

/-- **Both phases answer correctly.** -/
theorem correct_of_run (htol : options.tolerance = 0) (hlp : lp.WellFormed) {o : Outcome ℚ}
    (ho : run options lp = .ok o) : o.Correct lp := by
  rw [run, htol] at ho
  have hend := reaches_optimize 0 (ofProgram lp).rhsColumn
    (P := InPhase (ofProgram lp) (ofProgram lp).phaseOneCosts)
    (fun s row col hs hcol hrow => by
      rw [← hs.rhsColumn_eq] at hcol
      exact hs.pivot (hs.chosen le_rfl hcol).1 hrow)
    options.maxIterations _ (inPhase_ofProgram lp)
  revert ho hend
  cases optimize 0 (ofProgram lp).rhsColumn options.maxIterations
      ((ofProgram lp).price (ofProgram lp).artificialCosts) with
  | optimal s left =>
    rintro ho ⟨hs, hnone⟩
    rw [← hs.rhsColumn_eq] at hnone
    simp only at ho
    split at ho
    · rename_i hinf
      obtain rfl := Except.ok.inj ho
      intro x hx
      obtain ⟨hz, hsolves⟩ := isStructural_vectorOf hlp hx
      exact hs.not_solves_of_isInfeasible (hs.reducedCost_nonneg le_rfl hnone) hinf hz hsolves
    · rename_i hfeasible
      exact correct_of_phaseTwo htol hlp (hs.drained hfeasible) ho
  | unbounded s left =>
    -- the costs of phase one have a lower bound
    rintro - ⟨hs, col, hcol, hnone⟩
    rw [← hs.rhsColumn_eq] at hcol
    exact absurd hnone (hs.leaving?_ne_none hcol)
  | exhausted =>
    intro ho _
    cases ho

/-- **The simplex method gives correct verdicts**: with tolerance zero every answer to a program that
passes the checks says what is true of it. -/
theorem solve_correct (htol : options.tolerance = 0) (hg : lp.g.WellFormed)
    (ha : lp.a.WellFormed) {o : Outcome ℚ} (ho : solve options lp = .ok o) : o.Correct lp := by
  obtain ⟨_, hvalid, hrun⟩ := bind_eq_ok_iff.mp ho
  exact correct_of_run htol (LinearProgram.wellFormed_of_validate hg ha hvalid) hrun

deriving instance DecidableEq for Outcome

/-- A lower bound with a negative right side, and an equation that stands twice. -/
def doubled : LinearProgram ℚ where
  c := [1, 0]
  g := .ofTriplets 1 2 [((0, 0), -1)]
  h := [-1]
  a := .ofTriplets 2 2 [((0, 0), 1), ((0, 1), 1), ((1, 0), 2), ((1, 1), 2)]
  b := [3, 6]

/-- The program is solved, and its answer is correct. -/
theorem solve_correct_doubled :
    doubled.g.WellFormed ∧ doubled.a.WellFormed
      ∧ solve (⟨10, 0⟩ : SimplexOptions ℚ) doubled = .ok (.optimal [1, 2] 1)
      ∧ (Outcome.optimal [1, 2] 1).Correct doubled := by
  have hg : doubled.g.WellFormed := SparseMatrix.wellFormed_ofTriplets (by decide)
  have ha : doubled.a.WellFormed := SparseMatrix.wellFormed_ofTriplets (by decide)
  have ho : solve (⟨10, 0⟩ : SimplexOptions ℚ) doubled = .ok (.optimal [1, 2] 1) := by
    decide +kernel
  exact ⟨hg, ha, ho, solve_correct rfl hg ha ho⟩

end Simplex

end RelationalLP
