import Mathlib
import RelationalLP.Proofs.Grounding.FinishedProgram

/-! # Rows by atoms

A finished program read without its columns: a row gives every decision atom a coefficient, which is zero
for an atom without a column. Programs that differ in the order of their columns, or by columns of
zeros, read the same. What is read from a finished program are the coefficients of the quantities of its
rows. -/

namespace RelationalLP

/-- A row by decision atoms: the sum of the coefficients times the atoms is compared with the right
side. -/
structure AtomRow where
  /-- The coefficient of each decision atom. -/
  coefficient : Atom ℚ → ℚ
  /-- The right side. -/
  rightSide : ℚ

/-- The row of a quantity: what each decision atom adds to its value at zero, and the negated value at
zero. -/
noncomputable def AtomRow.ofQuantity (F : Quantity) : AtomRow :=
  ⟨fun a => F (Pi.single a 1) - F 0, -F 0⟩

namespace Grounded

variable (g : Grounded ℚ)

/-- What some cells have at the column of an atom, zero without a column. -/
def atColumn (cells : ℕ → ℚ) (a : Atom ℚ) : ℚ := ((g.columns.column? a).map cells).getD 0

/-- The rows of a kind by atoms: the equations, or the inequalities. -/
def atomRows (isEquality : Bool) : List AtomRow :=
  let matrix := if isEquality then g.program.a else g.program.g
  let rightSides := if isEquality then g.program.b else g.program.h
  rightSides.zipIdx.map fun (q, i) => ⟨g.atColumn (matrix.get i), q⟩

/-- The coefficient of a decision atom in the objective. -/
def objectiveCoefficient : Atom ℚ → ℚ := g.atColumn (g.program.c.getD · 0)

/-- **Readable programs**: the dimensions are consistent, and each column belongs to exactly one decision
atom, so that nothing is lost in reading by atoms. -/
structure Readable : Prop where
  /-- The dimensions are consistent. -/
  wellFormed : g.program.WellFormed
  /-- Each column belongs to one atom. -/
  existsUnique_atom : ∀ j < g.program.columnCount, ∃! a, g.columns.column? a = some j

end Grounded

/-! ### Unit points -/

/-- The point of some dimension with a one at one place. -/
def unitPoint (n j : ℕ) : List ℚ := (List.range n).map fun k => if k = j then 1 else 0

theorem getElem?_unitPoint {n j k : ℕ} (h : k < n) :
    (unitPoint n j)[k]? = some (if k = j then 1 else 0) := by
  rw [unitPoint, List.getElem?_map, List.getElem?_range h, Option.map_some]

/-- A product with a unit point picks out one cell. -/
theorem sum_mul_unitPoint (cells : ℕ → ℚ) {n j : ℕ} (h : j < n) :
    ∑ k ∈ Finset.range n, cells k * (unitPoint n j).getD k 0 = cells j := by
  have hcell : ∀ k ∈ Finset.range n, (unitPoint n j).getD k 0 = if k = j then 1 else 0 := by
    intro k hk
    rw [List.getD_eq_getElem?_getD, getElem?_unitPoint (Finset.mem_range.mp hk), Option.getD_some]
  rw [Finset.sum_congr rfl fun k hk => by rw [hcell k hk], Finset.sum_eq_single_of_mem j
    (Finset.mem_range.mpr h) fun k _ hk => by rw [if_neg hk, mul_zero], if_pos rfl, mul_one]

namespace GroundingContext

variable {ctx : GroundingContext ℚ} {a : Atom ℚ} {j : ℕ}

/-- The unit point of a column gives its atom the value one, and all others zero. -/
theorem reads_unitPoint (hv : ctx.Valid) (ha : ctx.finish.columns.column? a = some j) :
    ctx.finish.Reads (Pi.single a 1) (unitPoint ctx.columnCount j) := by
  refine ⟨?_, fun b k hb => ?_⟩
  · rw [unitPoint, List.length_map, List.length_range, columnCount_finish]
  · rw [getElem?_unitPoint (column?_lt hv hb)]
    by_cases hk : k = j
    · obtain rfl := column?_inj hv ha (hk ▸ hb)
      rw [if_pos hk, Pi.single_eq_same]
    · have hne : b ≠ a := by
        rintro rfl
        exact hk (Option.some.inj (hb.symm.trans ha))
      rw [if_neg hk, Pi.single_eq_of_ne hne]

/-- An atom without a column has no weight. -/
theorem weigh_of_column?_eq_none (hv : ctx.Valid) (ha : ctx.finish.columns.column? a = none)
    (t : Tally ℚ) : weigh (ctx.valueAt (Pi.single a 1)) t = 0 := by
  rw [← Tally.weigh_valueAt_zero ctx t]
  refine weigh_congr fun e _ => ?_
  rw [valueAt, valueAt]
  cases hb : ctx.atomAt e.1 with
  | none => rfl
  | some b =>
    have hne : b ≠ a := by
      rintro rfl
      have hcolumn := (column?_finish hv).mpr ⟨e.1, hb, rfl⟩
      rw [ha] at hcolumn
      cases hcolumn
    rw [Option.map_some, Option.map_some, Pi.single_eq_of_ne hne, Pi.zero_apply]

/-! ### Rows -/

/-- The cell of a row at the column of an atom. -/
theorem get_matrix (hv : ctx.Valid) {rows : List (GroundRow ℚ)}
    (hrows : ∀ r ∈ rows, r.entries.Known ctx) (ha : ctx.finish.columns.column? a = some j) {i : ℕ}
    (hi : i < rows.length) :
    (ctx.matrix rows).get i j = weigh (ctx.valueAt (Pi.single a 1)) rows[i].entries := by
  have hdot : (ctx.matrix rows).rowDot i (unitPoint ctx.columnCount j)
      = weigh (ctx.valueAt (Pi.single a 1)) rows[i].entries := by
    rw [← SparseMatrix.getD_mulVec _ _ (show i < (ctx.matrix rows).rows from hi),
      mulVec_matrix hv (reads_unitPoint hv ha) hrows, List.getD_eq_getElem?_getD, List.getElem?_map,
      List.getElem?_eq_getElem hi]
    rfl
  rw [← hdot, SparseMatrix.rowDot_eq_sum (wellFormed_matrix hrows)]
  exact (sum_mul_unitPoint _ (column?_lt hv ha)).symm

theorem atColumn_get_matrix (hv : ctx.Valid) {rows : List (GroundRow ℚ)}
    (hrows : ∀ r ∈ rows, r.entries.Known ctx) {i : ℕ} (hi : i < rows.length) (a : Atom ℚ) :
    ctx.finish.atColumn ((ctx.matrix rows).get i) a
      = weigh (ctx.valueAt (Pi.single a 1)) rows[i].entries := by
  rw [Grounded.atColumn]
  cases ha : ctx.finish.columns.column? a with
  | none => exact (weigh_of_column?_eq_none hv ha _).symm
  | some j => exact get_matrix hv hrows ha hi

/-- **The rows of a finished program by atoms** are those of its quantities. -/
theorem atomRows_finish (hc : ctx.Consistent) (e : Bool) :
    ctx.finish.atomRows e = (ctx.quantities e).map AtomRow.ofQuantity := by
  have hrows : ctx.finish.atomRows e = (rightSides (ctx.rows e)).zipIdx.map fun (q, i) =>
      ⟨ctx.finish.atColumn ((ctx.matrix (ctx.rows e)).get i), q⟩ := by
    cases e <;> rfl
  rw [hrows, quantities, List.map_map]
  refine List.ext_getElem ?_ fun i hi hi' => ?_
  · simp [rightSides]
  · have hlt : i < (ctx.rows e).length := by rwa [List.length_map] at hi'
    rw [List.getElem_map, List.getElem_map, List.getElem_zipIdx, Function.comp_apply]
    simp only [rightSides, List.getElem_map, AtomRow.ofQuantity, Nat.zero_add, AtomRow.mk.injEq]
    refine ⟨funext fun a => ?_, ?_⟩
    · rw [atColumn_get_matrix hc.valid (hc.rows e) hlt, GroundRow.quantity, GroundRow.quantity,
        GroundRow.valueAt_zero, GroundRow.valueAt, add_sub_cancel_right]
    · rw [GroundRow.quantity, GroundRow.valueAt_zero]

/-- **The objective of a finished program by atoms.** -/
theorem objectiveCoefficient_finish (hc : ctx.Consistent) (a : Atom ℚ) :
    ctx.finish.objectiveCoefficient a
      = ctx.model.sense.factor * ctx.objectiveAt (Pi.single a 1) := by
  rw [Grounded.objectiveCoefficient, Grounded.atColumn]
  cases ha : ctx.finish.columns.column? a with
  | none =>
    rw [objectiveAt, weigh_of_column?_eq_none hc.valid ha, mul_zero]
    rfl
  | some j =>
    rw [← objective_finish hc (reads_unitPoint hc.valid ha), LinearProgram.objective_eq_sum,
      columnCount_finish]
    exact (sum_mul_unitPoint (ctx.finish.program.c.getD · 0) (column?_lt hc.valid ha)).symm

theorem readable_finish (hc : ctx.Consistent) : ctx.finish.Readable := by
  refine ⟨wellFormed_finish hc, fun j hj => ?_⟩
  rw [columnCount_finish] at hj
  obtain ⟨a, ha⟩ := exists_column? hc.valid hj
  exact ⟨a, ha, fun b hb => column?_inj hc.valid hb ha⟩

end GroundingContext

end RelationalLP
