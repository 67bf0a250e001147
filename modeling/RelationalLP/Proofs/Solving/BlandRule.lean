import Mathlib
import RelationalLP.Proofs.Solving.Verdicts

/-! # Bland's rule

The pivots of a phase never come back to a basis. Between two tableaux with the same basis every pivot
would be degenerate: the objective never rises, and it is fixed by the basis. Take then the last column
`x` that both enters and leaves in between, the tableau `t` in which it leaves while `col` enters, and
the tableau `u` in which it enters. The ray of `col` in `t` lowers the objective, but no column has a
negative share in that: in `u` only `x` has a negative reduced cost among the columns up to `x`, and in
`t` only the row of `x` limits `col` among the rows of changing columns up to `x`. -/

namespace RelationalLP

/-! ### Sequences that come back -/

/-- What does not grow at any step, and is the same at the end as at the start, is the same throughout. -/
theorem eq_start_of_steps {α : Type} [PartialOrder α] {f : ℕ → α} {k : ℕ}
    (hstep : ∀ i < k, f (i + 1) ≤ f i) (hback : f k = f 0) : ∀ i ≤ k, f i = f 0 := by
  intro i hi
  have hanti : AntitoneOn f (Set.Iic k) :=
    antitoneOn_of_add_one_le Set.ordConnected_Iic fun i _ _ hi => hstep i (Nat.lt_of_succ_le hi)
  refine le_antisymm (hanti (Nat.zero_le k) hi (Nat.zero_le i)) ?_
  rw [← hback]
  exact hanti hi (le_refl k) hi

/-- What comes back and is not the same throughout, is gained at some step. -/
theorem exists_gained {p : ℕ → Prop} {k i l : ℕ} (hback : p k ↔ p 0) (hi : i ≤ k) (hl : l ≤ k)
    (hpi : p i) (hpl : ¬ p l) : ∃ m < k, ¬ p m ∧ p (m + 1) := by
  by_contra hnone
  -- without such a step the property is only ever lost, so it never changes
  have hstep : ∀ m < k, p (m + 1) ≤ p m := fun m hm hp =>
    by_contra fun hnp => hnone ⟨m, hm, hnp, hp⟩
  have hstart := eq_start_of_steps hstep (propext hback)
  rw [hstart i hi] at hpi
  rw [hstart l hl] at hpl
  exact hpl hpi

namespace Tableau

variable {first t u : Tableau ℚ} {row col allowed : ℕ} {c : ℕ → ℚ}

/-! ### Bases -/

/-- The basis: the columns that are basic in some row. -/
def basisSet (t : Tableau ℚ) : Finset ℕ := t.basis.toFinset

theorem Sized.mem_basisSet (hs : t.Sized) {j : ℕ} :
    j ∈ t.basisSet ↔ ∃ i < t.height, t.basicColumn i = j := by
  rw [basisSet, List.mem_toFinset, List.mem_iff_getElem]
  constructor
  · rintro ⟨i, hi, rfl⟩
    exact ⟨i, hs.basis_length ▸ hi, List.getD_eq_getElem _ _ hi⟩
  · rintro ⟨i, hi, rfl⟩
    have hi' : i < t.basis.length := hs.basis_length.symm ▸ hi
    exact ⟨i, hi', (List.getD_eq_getElem _ _ hi').symm⟩

theorem Sized.basicColumn_mem (hs : t.Sized) {i : ℕ} (hi : i < t.height) :
    t.basicColumn i ∈ t.basisSet := hs.mem_basisSet.mpr ⟨i, hi, rfl⟩

/-- A basis is made of columns of variables. -/
theorem BasicForm.basisSet_subset (h : t.BasicForm) :
    t.basisSet ⊆ Finset.range t.rhsColumn := by
  intro j hj
  obtain ⟨i, hi, rfl⟩ := h.mem_basisSet.mp hj
  exact Finset.mem_range.mpr (h.basic_lt i hi)

/-- **The basis after a pivot**: the column enters, and the basic column of the row leaves. -/
theorem BasicForm.mem_basisSet_pivot (h : t.BasicForm) (hrow : row < t.height)
    (hcol : col < t.rhsColumn) (hne : t.cell row col ≠ 0) {j : ℕ} :
    j ∈ (t.pivot row col).basisSet ↔ j = col ∨ j ∈ t.basisSet ∧ j ≠ t.basicColumn row := by
  have hbasic : ∀ i, (t.pivot row col).basicColumn i = if i = row then col else t.basicColumn i :=
    fun i => basicColumn_pivot t row col (by rw [h.basis_length]; exact hrow)
  rw [(h.pivot hrow hcol hne).mem_basisSet, h.mem_basisSet, height_pivot]
  constructor
  · rintro ⟨i, hi, rfl⟩
    rw [hbasic]
    by_cases hir : i = row
    · exact .inl (if_pos hir)
    · rw [if_neg hir]
      exact .inr ⟨⟨i, hi, rfl⟩, fun heq => hir (h.basicColumn_inj hi hrow heq)⟩
  · rintro (rfl | ⟨⟨i, hi, rfl⟩, hne⟩)
    · exact ⟨row, hrow, by simp [hbasic]⟩
    · exact ⟨i, hi, by rw [hbasic, if_neg fun hir => hne (by rw [hir])]⟩

/-! ### The basic point of a basis -/

theorem Sized.basicVector_of_notMem (hs : t.Sized) (r : ℕ → ℚ) {j : ℕ} (hj : j ∉ t.basisSet) :
    t.basicVector r j = 0 := by
  refine Finset.sum_eq_zero fun i hi => if_neg fun heq => hj ?_
  exact hs.mem_basisSet.mpr ⟨i, Finset.mem_range.mp hi, heq⟩

/-- **The basic point is the only solution that is zero outside the basis.** -/
theorem BasicForm.eq_basicPoint (h : t.BasicForm) {z : ℕ → ℚ} (hz : t.Solves z)
    (hzero : ∀ j, j ∉ t.basisSet → z j = 0) : z = t.basicPoint := by
  have hvector : z = t.basicVector fun i => z (t.basicColumn i) := by
    funext j
    by_cases hj : j ∈ t.basisSet
    · obtain ⟨i, hi, rfl⟩ := h.mem_basisSet.mp hj
      rw [h.basicVector_basicColumn _ hi]
    · rw [hzero j hj, h.basicVector_of_notMem _ hj]
  -- each row reads off the coordinate of its basic column
  have hrows : ∀ i < t.height, z (t.basicColumn i) = t.rightSide i := by
    intro i hi
    have hsum := h.sum_cell_mul_basicVector (fun i => z (t.basicColumn i)) hi
    rw [← hvector] at hsum
    rw [← hsum]
    exact sub_eq_zero.mp (hz i hi)
  rw [hvector]
  funext j
  exact Finset.sum_congr rfl fun i hi => by simp only [hrows i (Finset.mem_range.mp hi)]

/-- Tableaux with the same solutions and the same basis have the same basic point. -/
theorem Reached.basicPoint_eq (ht : Reached first t) (hu : Reached first u)
    (hbasis : t.basisSet = u.basisSet) : t.basicPoint = u.basicPoint := by
  refine hu.basicForm.eq_basicPoint ?_ fun j hj => ?_
  · exact (hu.solves_iff _).mpr ((ht.solves_iff _).mp ht.basicForm.solves_basicPoint)
  · exact ht.basicForm.basicVector_of_notMem _ (hbasis ▸ hj)

/-- The objective at the basic point. -/
def level (t : Tableau ℚ) : ℚ := -t.reducedCost t.rhsColumn

/-- The basis fixes the objective. -/
theorem InPhase.level_eq (ht : InPhase first c t) (hu : InPhase first c u)
    (hbasis : t.basisSet = u.basisSet) : t.level = u.level := by
  rw [level, level, ← ht.basicForm.cost_basicPoint ht.priced, ← hu.basicForm.cost_basicPoint hu.priced,
    ht.basicPoint_eq hu.toReached hbasis, ht.rhsColumn_eq, hu.rhsColumn_eq]

/-! ### The pivots of a phase -/

/-- The pivot that a phase makes: the row and the column that are chosen. -/
structure Chooses (allowed : ℕ) (t : Tableau ℚ) (row col : ℕ) : Prop where
  /-- The column enters. -/
  entering : t.entering? 0 allowed = some col
  /-- The basic column of the row leaves. -/
  leaving : t.leaving? 0 col = some row

/-- **One pivot of a phase** leads from a tableau to the next one. -/
def Follows (allowed : ℕ) (t t' : Tableau ℚ) : Prop :=
  ∃ row col, t.Chooses allowed row col ∧ t' = t.pivot row col

/-- The chosen column has a negative reduced cost, and the chosen row is the best one. -/
theorem InPhase.of_chooses (h : InPhase first c t) (hallowed : allowed ≤ first.rhsColumn)
    (hp : t.Chooses allowed row col) :
    col < t.rhsColumn ∧ t.reducedCost col < 0 ∧ t.BestUpTo col t.height row := by
  rw [← h.rhsColumn_eq] at hallowed
  obtain ⟨hlt, hneg⟩ := h.chosen hallowed hp.entering
  exact ⟨hlt.trans_le hallowed, hneg, bestUpTo_of_leaving?_eq_some hp.leaving⟩

/-- Every column before the entering one has a nonnegative reduced cost. -/
theorem InPhase.reducedCost_nonneg_of_lt (h : InPhase first c t)
    (hallowed : allowed ≤ first.rhsColumn) (hcol : t.entering? 0 allowed = some col) {j : ℕ}
    (hj : j < col) : 0 ≤ t.reducedCost j := by
  have hlen : allowed ≤ t.cost.length := by
    rw [h.basicForm.cost_length, width_eq, h.rhsColumn_eq]
    omega
  have hle := (entering?_eq_some hlen hcol).2.2 j hj
  rwa [neg_zero] at hle

/-- A column with a negative reduced cost is not basic. -/
theorem InPhase.notMem_basisSet (h : InPhase first c t) (hneg : t.reducedCost col < 0) :
    col ∉ t.basisSet := by
  intro hmem
  obtain ⟨i, hi, rfl⟩ := h.basicForm.mem_basisSet.mp hmem
  exact hneg.ne (h.priced.basic_zero i hi)

theorem InPhase.follows (h : InPhase first c t) (hallowed : allowed ≤ first.rhsColumn)
    (hstep : t.Follows allowed u) : InPhase first c u := by
  obtain ⟨row, col, hp, rfl⟩ := hstep
  exact h.pivot (h.of_chooses hallowed hp).1 hp.leaving

/-- A pivot changes the objective by the ratio of its row times the reduced cost of its column. -/
theorem InPhase.level_pivot (h : InPhase first c t) (hrow : row < t.height) :
    (t.pivot row col).level = t.level + t.reducedCost col * t.ratio col row := by
  rw [level, level, rhsColumn_pivot, h.basicForm.reducedCost_pivot hrow, ratio, rightSide]
  ring

/-- **The objective never rises.** -/
theorem InPhase.level_le (h : InPhase first c t) (hallowed : allowed ≤ first.rhsColumn)
    (hstep : t.Follows allowed u) : u.level ≤ t.level := by
  obtain ⟨row, col, hp, rfl⟩ := hstep
  obtain ⟨-, hneg, hbest⟩ := h.of_chooses hallowed hp
  have hratio : 0 ≤ t.ratio col row :=
    div_nonneg (h.rightSide_nonneg row hbest.row_lt) hbest.cell_pos.le
  rw [h.level_pivot hbest.row_lt]
  exact add_le_of_nonpos_right (mul_nonpos_of_nonpos_of_nonneg hneg.le hratio)

/-- **A pivot that keeps the objective keeps the basic point.** -/
theorem InPhase.basicPoint_eq_of_level_eq (h : InPhase first c t)
    (hallowed : allowed ≤ first.rhsColumn) (hstep : t.Follows allowed u)
    (hlevel : u.level = t.level) : u.basicPoint = t.basicPoint := by
  have hu := h.follows hallowed hstep
  obtain ⟨row, col, hp, rfl⟩ := hstep
  obtain ⟨hcol, hneg, hbest⟩ := h.of_chooses hallowed hp
  -- the right side of the row is zero, since the reduced cost of the column is not
  have hzero : t.rightSide row = 0 := by
    rw [h.level_pivot hbest.row_lt, add_eq_left, mul_eq_zero, ratio, div_eq_zero_iff] at hlevel
    exact (hlevel.resolve_left hneg.ne).resolve_right hbest.cell_pos.ne'
  refine (hu.basicForm.eq_basicPoint ?_ fun j hj => ?_).symm
  · exact (hu.solves_iff _).mpr ((h.solves_iff _).mp h.basicForm.solves_basicPoint)
  · by_cases hmem : j ∈ t.basisSet
    · -- only the leaving column has left the basis
      have hleft : j = t.basicColumn row := by
        by_contra hne
        rw [h.basicForm.mem_basisSet_pivot hbest.row_lt hcol hbest.cell_pos.ne'] at hj
        exact hj (.inr ⟨hmem, hne⟩)
      rw [hleft, basicPoint, h.basicForm.basicVector_basicColumn _ hbest.row_lt, hzero]
    · exact h.basicForm.basicVector_of_notMem _ hmem

/-! ### A column that leaves and enters -/

/-- The reduced costs of one tableau along a ray of another one on the same level. -/
theorem InPhase.sum_reducedCost_mul_rayPoint (ht : InPhase first c t) (hu : InPhase first c u)
    (hlevel : t.level = u.level) (hcol : col < t.rhsColumn) :
    ∑ j ∈ Finset.range u.rhsColumn, u.reducedCost j * t.rayPoint col 1 j = t.reducedCost col := by
  have hsolves : u.Solves (t.rayPoint col 1) :=
    (hu.solves_iff _).mpr ((ht.solves_iff _).mp (ht.basicForm.solves_rayPoint hcol 1))
  have hcost := ht.basicForm.cost_rayPoint ht.priced hcol 1
  have hwidth : t.rhsColumn = u.rhsColumn := ht.rhsColumn_eq.trans hu.rhsColumn_eq.symm
  rw [level, level, neg_inj] at hlevel
  rw [hlevel, hwidth, ← hu.priced.objective _ hsolves, residual, mul_one] at hcost
  exact sub_left_injective hcost

/-- The share of a basic column that is at zero in the ray of another column. -/
theorem BasicForm.rayPoint_basicColumn (h : t.BasicForm) {i : ℕ} (hi : i < t.height)
    (hne : t.basicColumn i ≠ col) (hside : t.rightSide i = 0) :
    t.rayPoint col 1 (t.basicColumn i) = -t.cell i col := by
  rw [rayPoint, if_neg hne, h.basicVector_basicColumn _ hi, hside]
  ring

/-- Of the rows with right side zero, those before the limiting one do not limit the column. -/
theorem BestUpTo.cell_nonpos (h : t.BestUpTo col t.height row) (hzero : t.rightSide row = 0) {i : ℕ}
    (hi : i < t.height) (hside : t.rightSide i = 0) (hlt : t.basicColumn i < t.basicColumn row) :
    t.cell i col ≤ 0 := by
  by_contra hpos
  rcases h.least i hi (not_le.mp hpos) with hratio | ⟨-, hbasic⟩
  · rw [ratio, ratio, hzero, hside, zero_div, zero_div] at hratio
    exact hratio.false
  · omega

/-- **A column that leaves one tableau and enters another** on the same level is not the last one that
is basic in the first and not in the second, as long as the others are at zero. -/
theorem InPhase.exists_changed (ht : InPhase first c t) (hu : InPhase first c u)
    (hallowed : allowed ≤ first.rhsColumn) (hlevel : t.level = u.level)
    (hp : t.Chooses allowed row col) (hx : u.entering? 0 allowed = some (t.basicColumn row))
    (hxneg : u.reducedCost (t.basicColumn row) < 0) (hlt : col < t.basicColumn row) :
    ∃ j ∈ t.basisSet, j ∉ u.basisSet ∧ (t.basicColumn row < j ∨ t.basicPoint j ≠ 0) := by
  by_contra hnone
  obtain ⟨hcol, hneg, hbest⟩ := ht.of_chooses hallowed hp
  have hcol_notMem := ht.notMem_basisSet hneg
  have hchanged : ∀ i < t.height, t.basicColumn i ∉ u.basisSet →
      t.basicColumn i ≤ t.basicColumn row ∧ t.rightSide i = 0 := by
    intro i hi hout
    have hnot : ¬ (t.basicColumn row < t.basicColumn i ∨ t.basicPoint (t.basicColumn i) ≠ 0) :=
      fun h => hnone ⟨_, ht.basicForm.basicColumn_mem hi, hout, h⟩
    rwa [not_or, not_lt, not_not, basicPoint, ht.basicForm.basicVector_basicColumn _ hi] at hnot
  have hrow_side := (hchanged row hbest.row_lt (hu.notMem_basisSet hxneg)).2
  -- no column has a negative share in the costs of the ray, which are negative
  refine absurd (ht.sum_reducedCost_mul_rayPoint hu hlevel hcol) (hneg.trans_le ?_).ne'
  refine Finset.sum_nonneg fun j _ => ?_
  by_cases hju : j ∈ u.basisSet
  · -- a column that is basic in `u` costs nothing there
    obtain ⟨i, hi, rfl⟩ := hu.basicForm.mem_basisSet.mp hju
    rw [hu.priced.basic_zero i hi, zero_mul]
  · by_cases hjt : j ∈ t.basisSet
    · obtain ⟨i, hi, rfl⟩ := ht.basicForm.mem_basisSet.mp hjt
      obtain ⟨hle, hside⟩ := hchanged i hi hju
      have hne : t.basicColumn i ≠ col := fun heq => hcol_notMem (heq ▸ hjt)
      rw [ht.basicForm.rayPoint_basicColumn hi hne hside]
      rcases hle.lt_or_eq with hbefore | hsame
      · -- a column before the leaving one: its row does not limit the ray
        exact mul_nonneg (hu.reducedCost_nonneg_of_lt hallowed hx hbefore)
          (neg_nonneg.mpr (hbest.cell_nonpos hrow_side hi hside hbefore))
      · -- the leaving column itself: it falls along the ray, and its reduced cost is negative
        rw [ht.basicForm.basicColumn_inj hi hbest.row_lt hsame]
        exact mul_nonneg_of_nonpos_of_nonpos hxneg.le (neg_nonpos.mpr hbest.cell_pos.le)
    · -- of the columns that are basic in neither tableau the ray moves `col` only
      rw [rayPoint, ht.basicForm.basicVector_of_notMem _ hjt, add_zero]
      split
      · rename_i hj
        rw [mul_one]
        exact hu.reducedCost_nonneg_of_lt hallowed hx (hj ▸ hlt)
      · rw [mul_zero]

/-! ### Loops -/

/-- **A loop of pivots**: tableaux of a phase, each following the one before, that come back to the basis
they started from. -/
structure Loop (first : Tableau ℚ) (c : ℕ → ℚ) (allowed : ℕ) (s : ℕ → Tableau ℚ) (k : ℕ) : Prop where
  /-- Each tableau is one of the phase. -/
  inPhase : ∀ i ≤ k, InPhase first c (s i)
  /-- Each one follows the one before. -/
  follows : ∀ i < k, (s i).Follows allowed (s (i + 1))
  /-- The last basis is the first one. -/
  back : (s k).basisSet = (s 0).basisSet

namespace Loop

variable {s : ℕ → Tableau ℚ} {k : ℕ}

/-- The objective is the same throughout. -/
theorem level_eq (h : Loop first c allowed s k) (hallowed : allowed ≤ first.rhsColumn) :
    ∀ i ≤ k, (s i).level = (s 0).level :=
  eq_start_of_steps (fun i hi => (h.inPhase i hi.le).level_le hallowed (h.follows i hi))
    ((h.inPhase k le_rfl).level_eq (h.inPhase 0 (Nat.zero_le k)) h.back)

/-- The basic point is the same throughout. -/
theorem basicPoint_eq (h : Loop first c allowed s k) (hallowed : allowed ≤ first.rhsColumn) :
    ∀ i ≤ k, (s i).basicPoint = (s 0).basicPoint := by
  intro i
  induction i with
  | zero => exact fun _ => rfl
  | succ i ih =>
    intro hi
    have hlevel := h.level_eq hallowed
    rw [(h.inPhase i (by omega)).basicPoint_eq_of_level_eq hallowed (h.follows i hi)
      ((hlevel (i + 1) hi).trans (hlevel i (by omega)).symm), ih (by omega)]

/-- **What a step does to the basis.** -/
theorem exists_chooses (h : Loop first c allowed s k) (hallowed : allowed ≤ first.rhsColumn) {i : ℕ}
    (hi : i < k) : ∃ row col, (s i).Chooses allowed row col ∧ (s i).reducedCost col < 0
      ∧ ∀ j, j ∈ (s (i + 1)).basisSet ↔ j = col ∨ j ∈ (s i).basisSet ∧ j ≠ (s i).basicColumn row := by
  have hphase := h.inPhase i hi.le
  obtain ⟨row, col, hp, heq⟩ := h.follows i hi
  obtain ⟨hcol, hneg, hbest⟩ := hphase.of_chooses hallowed hp
  refine ⟨row, col, hp, hneg, fun j => ?_⟩
  rw [heq]
  exact hphase.basicForm.mem_basisSet_pivot hbest.row_lt hcol hbest.cell_pos.ne'

/-- The columns that are basic at one time and not at another. -/
noncomputable def changing (s : ℕ → Tableau ℚ) (k : ℕ) : Finset ℕ :=
  (Finset.range (s 0).rhsColumn).filter fun j =>
    (∃ i ≤ k, j ∈ (s i).basisSet) ∧ ∃ i ≤ k, j ∉ (s i).basisSet

theorem mem_changing (h : Loop first c allowed s k) {j i l : ℕ} (hi : i ≤ k) (hl : l ≤ k)
    (hin : j ∈ (s i).basisSet) (hout : j ∉ (s l).basisSet) : j ∈ changing s k := by
  refine Finset.mem_filter.mpr ⟨?_, ⟨i, hi, hin⟩, ⟨l, hl, hout⟩⟩
  rw [(h.inPhase 0 (Nat.zero_le k)).rhsColumn_eq, ← (h.inPhase i hi).rhsColumn_eq]
  exact (h.inPhase i hi).basicForm.basisSet_subset hin

/-- Changing columns are at zero throughout. -/
theorem basicPoint_eq_zero (h : Loop first c allowed s k) (hallowed : allowed ≤ first.rhsColumn)
    {j : ℕ} (hj : j ∈ changing s k) : (s 0).basicPoint j = 0 := by
  obtain ⟨-, -, i, hi, hout⟩ := Finset.mem_filter.mp hj
  rw [← h.basicPoint_eq hallowed i hi]
  exact (h.inPhase i hi).basicForm.basicVector_of_notMem _ hout

/-- A loop with a pivot has changing columns. -/
theorem changing_nonempty (h : Loop first c allowed s k) (hallowed : allowed ≤ first.rhsColumn)
    (hk : 0 < k) : (changing s k).Nonempty := by
  obtain ⟨_, col, -, hneg, hnext⟩ := h.exists_chooses hallowed hk
  exact ⟨col, h.mem_changing hk (Nat.zero_le k) ((hnext col).mpr (.inl rfl))
    ((h.inPhase 0 (Nat.zero_le k)).notMem_basisSet hneg)⟩

/-- A changing column enters at some step. -/
theorem exists_enters (h : Loop first c allowed s k) (hallowed : allowed ≤ first.rhsColumn) {x : ℕ}
    (hx : x ∈ changing s k) : ∃ a < k, (s a).entering? 0 allowed = some x
      ∧ (s a).reducedCost x < 0 := by
  obtain ⟨-, ⟨i, hi, hin⟩, ⟨l, hl, hout⟩⟩ := Finset.mem_filter.mp hx
  obtain ⟨a, ha, hbefore, hafter⟩ := exists_gained (p := fun i => x ∈ (s i).basisSet)
    (by rw [h.back]) hi hl hin hout
  obtain ⟨_, col, hp, hneg, hnext⟩ := h.exists_chooses hallowed ha
  rcases (hnext x).mp hafter with rfl | ⟨hstays, -⟩
  · exact ⟨a, ha, hp.entering, hneg⟩
  · exact absurd hstays hbefore

/-- A changing column leaves at some step, while another one enters. -/
theorem exists_leaves (h : Loop first c allowed s k) (hallowed : allowed ≤ first.rhsColumn) {x : ℕ}
    (hx : x ∈ changing s k) : ∃ b < k, ∃ row col, (s b).Chooses allowed row col
      ∧ (s b).basicColumn row = x ∧ col ∈ changing s k ∧ col ≠ x := by
  obtain ⟨-, ⟨i, hi, hin⟩, ⟨l, hl, hout⟩⟩ := Finset.mem_filter.mp hx
  obtain ⟨b, hb, hbefore, hafter⟩ := exists_gained (p := fun i => x ∉ (s i).basisSet)
    (by rw [h.back]) hl hi hout (not_not.mpr hin)
  obtain ⟨row, col, hp, hneg, hnext⟩ := h.exists_chooses hallowed hb
  have hcol := (h.inPhase b hb.le).notMem_basisSet hneg
  have hbefore : x ∈ (s b).basisSet := not_not.mp hbefore
  refine ⟨b, hb, row, col, hp, ?_, h.mem_changing hb hb.le ((hnext col).mpr (.inl rfl)) hcol,
    fun heq => hcol (heq ▸ hbefore)⟩
  by_contra hne
  exact hafter ((hnext x).mpr (.inr ⟨hbefore, Ne.symm hne⟩))

/-- **There are no loops.** -/
theorem eq_zero (h : Loop first c allowed s k) (hallowed : allowed ≤ first.rhsColumn) : k = 0 := by
  by_contra hk
  have hnonempty := h.changing_nonempty hallowed (Nat.pos_of_ne_zero hk)
  have hmax := (changing s k).max'_mem hnonempty
  have hle : ∀ j ∈ changing s k, j ≤ (changing s k).max' hnonempty := fun j => (changing s k).le_max' j
  -- the last changing column leaves at one step and enters at another
  obtain ⟨a, ha, henters, hneg⟩ := h.exists_enters hallowed hmax
  obtain ⟨b, hb, row, col, hp, hleaves, hcol, hne⟩ := h.exists_leaves hallowed hmax
  rw [← hleaves] at henters hneg hne hle
  obtain ⟨j, hjb, hja, hchanged⟩ := (h.inPhase b hb.le).exists_changed (h.inPhase a ha.le) hallowed
    ((h.level_eq hallowed b hb.le).trans (h.level_eq hallowed a ha.le).symm) hp henters hneg
    (lt_of_le_of_ne (hle col hcol) hne)
  have hj := h.mem_changing hb.le ha.le hjb hja
  rcases hchanged with hlater | hvalue
  · exact absurd (hle j hj) (not_le.mpr hlater)
  · rw [h.basicPoint_eq hallowed b hb.le] at hvalue
    exact hvalue (h.basicPoint_eq_zero hallowed hj)

end Loop

theorem InPhase.follows_upTo {s : ℕ → Tableau ℚ} {k : ℕ} (h : InPhase first c (s 0))
    (hallowed : allowed ≤ first.rhsColumn) (hstep : ∀ i < k, (s i).Follows allowed (s (i + 1))) :
    ∀ i ≤ k, InPhase first c (s i) := by
  intro i hi
  induction i with
  | zero => exact h
  | succ i ih => exact (ih (by omega)).follows hallowed (hstep i hi)

/-- **The pivots of a phase never come back to a basis.** -/
theorem InPhase.basisSet_ne {s : ℕ → Tableau ℚ} {k : ℕ} (h : InPhase first c (s 0))
    (hallowed : allowed ≤ first.rhsColumn) (hstep : ∀ i < k, (s i).Follows allowed (s (i + 1)))
    (hk : 0 < k) : (s k).basisSet ≠ (s 0).basisSet := by
  intro hback
  have hloop : Loop first c allowed s k := ⟨h.follows_upTo hallowed hstep, hstep, hback⟩
  exact hk.ne' (hloop.eq_zero hallowed)

end Tableau

end RelationalLP
