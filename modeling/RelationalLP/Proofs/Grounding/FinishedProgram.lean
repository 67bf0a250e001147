import Mathlib
import RelationalLP.Proofs.Grounding.Layout
import RelationalLP.Proofs.Grounding.Progress
import RelationalLP.Proofs.Linear.Feasibility

/-! # Finished programs

A finished program is read through its columns: a point gives every decision variable with a column its
value. At such a point the left sides minus the right sides are the quantities of the finished rows,
and the objective is that of the context. -/

namespace RelationalLP

namespace LinearProgram

/-- The left sides minus the right sides at a point: of the equations, or of the inequalities. -/
def residuals (lp : LinearProgram ℚ) (isEquality : Bool) (x : List ℚ) : List ℚ :=
  if isEquality then List.zipWith (· - ·) (lp.a.mulVec x) lp.b
  else List.zipWith (· - ·) (lp.g.mulVec x) lp.h

/-- Adding to one coefficient adds its multiple of the coordinate there. -/
theorem sum_zipWith_modify {c x : List ℚ} (h : c.length = x.length) (j : ℕ) (q : ℚ) :
    (List.zipWith (· * ·) (c.modify j (· + q)) x).sum
      = (List.zipWith (· * ·) c x).sum + q * x.getD j 0 := by
  induction c generalizing x j with
  | nil =>
    obtain rfl := List.length_eq_zero_iff.mp h.symm
    simp
  | cons p c ih =>
    cases x with
    | nil => cases h
    | cons y x =>
      cases j with
      | zero =>
        simp only [List.modify_zero_cons, List.zipWith_cons_cons, List.sum_cons, List.getD_cons_zero]
        ring
      | succ j =>
        simp only [List.modify_succ_cons, List.zipWith_cons_cons, List.sum_cons, List.getD_cons_succ]
        rw [ih (Nat.succ.inj h), add_assoc]

end LinearProgram

/-- **Reading a program through its columns**: a point that gives each decision variable with a column
its value. -/
structure Grounded.Reads (g : Grounded ℚ) (v : Atom ℚ → ℚ) (x : List ℚ) : Prop where
  /-- There is a coordinate for each column. -/
  length_eq : x.length = g.program.columnCount
  /-- The coordinate of a decision atom is its value. -/
  cell_eq : ∀ a j, g.columns.column? a = some j → x[j]? = some (v a)

namespace GroundingContext

section

variable {K : Type} [Scalar K] {ctx : GroundingContext K}

theorem length_foldl_modify (f : Position × K → ℕ) (g : Position × K → K) (es : List (Position × K))
    (c : List K) : (es.foldl (fun c e => c.modify (f e) (· + g e)) c).length = c.length := by
  induction es generalizing c with
  | nil => rfl
  | cons e es ih => rw [List.foldl_cons, ih, List.length_modify]

theorem columnCount_finish (ctx : GroundingContext K) :
    ctx.finish.program.columnCount = ctx.columnCount :=
  (length_foldl_modify _ _ _ _).trans List.length_replicate

/-- The matrix of consistent rows has its entries inside. -/
theorem wellFormed_matrix {rows : List (GroundRow K)} (hrows : ∀ r ∈ rows, r.entries.Known ctx) :
    (ctx.matrix rows).WellFormed := by
  refine SparseMatrix.wellFormed_ofTriplets fun t ht => ?_
  obtain ⟨⟨row, i⟩, hrow, ht⟩ := List.mem_flatMap.mp ht
  obtain ⟨e, he, rfl⟩ := List.mem_map.mp ht
  obtain ⟨a, ha⟩ := Option.isSome_iff_exists.mp
    ((hrows row (List.fst_mem_of_mem_zipIdx hrow)).known e.1 (List.mem_map_of_mem he))
  refine ⟨?_, columnOf_lt ha⟩
  have hlt := (List.mem_zipIdx hrow).2.1
  simpa using hlt

end

variable {ctx : GroundingContext ℚ} {v : Atom ℚ → ℚ} {x : List ℚ}

/-- **A finished program has consistent dimensions.** -/
theorem wellFormed_finish (hc : ctx.Consistent) : ctx.finish.program.WellFormed where
  g_wellFormed := wellFormed_matrix (hc.rows false)
  a_wellFormed := wellFormed_matrix (hc.rows true)
  g_cols := ctx.columnCount_finish.symm
  a_cols := ctx.columnCount_finish.symm
  g_rows := (List.length_map _).symm
  a_rows := (List.length_map _).symm

/-- **There is exactly one point for each assignment.** -/
theorem existsUnique_reads (hv : ctx.Valid) (v : Atom ℚ → ℚ) : ∃! x, ctx.finish.Reads v x := by
  have hatom : ∀ j : Fin ctx.columnCount, ∃ a, ctx.finish.columns.column? a = some j.1 :=
    fun j => exists_column? hv j.2
  choose atom hatom using hatom
  refine ⟨List.ofFn fun j => v (atom j), ⟨?_, fun a j hj => ?_⟩, fun y hy => ?_⟩
  · rw [List.length_ofFn, columnCount_finish]
  · have hlt := column?_lt hv hj
    have heq : atom ⟨j, hlt⟩ = a := column?_inj hv (hatom ⟨j, hlt⟩) hj
    rw [List.getElem?_ofFn, dif_pos hlt, heq]
  · have hlength := hy.length_eq
    rw [columnCount_finish] at hlength
    refine List.ext_getElem? fun j => ?_
    by_cases hj : j < ctx.columnCount
    · rw [hy.cell_eq _ j (hatom ⟨j, hj⟩), List.getElem?_ofFn, dif_pos hj]
    · rw [List.getElem?_eq_none (by omega), List.getElem?_ofFn, dif_neg hj]

/-- The coordinate of a key is the value of its atom. -/
theorem getD_columnOf (hv : ctx.Valid) (hx : ctx.finish.Reads v x) {key : Position}
    (h : (ctx.atomAt key).isSome) : x.getD (ctx.columnOf key) 0 = ctx.valueAt v key := by
  obtain ⟨a, ha⟩ := Option.isSome_iff_exists.mp h
  have hcell := hx.cell_eq a _ ((column?_finish hv).mpr ⟨key, ha, rfl⟩)
  rw [List.getD_eq_getElem?_getD, hcell, valueAt_of_atomAt ha]
  rfl

/-- The products of the rows of a matrix are the values of the grounded rows without their constants. -/
theorem mulVec_matrix (hv : ctx.Valid) (hx : ctx.finish.Reads v x) {rows : List (GroundRow ℚ)}
    (hrows : ∀ r ∈ rows, r.entries.Known ctx) :
    (ctx.matrix rows).mulVec x = rows.map fun r => weigh (ctx.valueAt v) r.entries := by
  refine List.ext_getElem ?_ fun i hi hi' => ?_
  · rw [SparseMatrix.length_mulVec, List.length_map]
    rfl
  · have hlt : i < rows.length := by rwa [List.length_map] at hi'
    -- an entry of another row has no weight
    have hrow : ∀ e ∈ rows.zipIdx, weigh (SparseMatrix.rowWeight i x)
          (e.1.entries.map fun p => ((e.2, ctx.columnOf p.1), p.2))
        = if e.2 = i then weigh (ctx.valueAt v) e.1.entries else 0 := by
      intro e he
      rw [weigh_map _ fun key => (e.2, ctx.columnOf key)]
      split
      · rename_i heq
        refine weigh_congr fun p hp => ?_
        rw [Function.comp_apply, SparseMatrix.rowWeight, if_pos heq]
        exact getD_columnOf hv hx
          ((hrows e.1 (List.fst_mem_of_mem_zipIdx he)).known p.1 (List.mem_map_of_mem hp))
      · rename_i hne
        refine List.sum_eq_zero (List.forall_mem_map.mpr fun p _ => ?_)
        rw [Function.comp_apply, SparseMatrix.rowWeight, if_neg hne, zero_mul]
    have hdot : (ctx.matrix rows).rowDot i x = weigh (ctx.valueAt v) rows[i].entries := by
      rw [SparseMatrix.rowDot_eq_weigh, matrix, SparseMatrix.weigh_ofTriplets, weigh_flatMap,
        List.map_congr_left hrow,
        SparseMatrix.sum_zipIdx_ite (fun r : GroundRow ℚ => weigh (ctx.valueAt v) r.entries),
        List.getElem?_eq_getElem hlt]
      rfl
    simp only [SparseMatrix.mulVec_eq_map_rowDot, List.getElem_map, List.getElem_range, hdot]

/-- **The rows of a finished program** at a point: the quantities of the finished rows. -/
theorem residuals_finish (hc : ctx.Consistent) (hx : ctx.finish.Reads v x) (e : Bool) :
    ctx.finish.program.residuals e x = (ctx.quantities e).map (· v) := by
  have hall : List.zipWith (· - ·) ((ctx.matrix (ctx.rows e)).mulVec x) (rightSides (ctx.rows e))
      = (ctx.quantities e).map (· v) := by
    rw [mulVec_matrix hc.valid hx (hc.rows e), rightSides, List.zipWith_map, List.zipWith_self,
      quantities, List.map_map]
    refine List.map_congr_left fun r _ => ?_
    rw [sub_neg_eq_add]
    rfl
  cases e <;> exact hall

/-- Costs that are added at their columns one after another, to a vector of any costs, add their
weight to its objective. -/
theorem sum_foldl_costs (hc : ctx.Consistent) (hx : ctx.finish.Reads v x) {es : Tally ℚ} {c : List ℚ}
    (hknown : es.Known ctx) (hlength : c.length = x.length) :
    (List.zipWith (· * ·) (es.foldl
        (fun c e => c.modify (ctx.columnOf e.1) (· + ctx.model.sense.factor * e.2)) c) x).sum
      = (List.zipWith (· * ·) c x).sum + ctx.model.sense.factor * weigh (ctx.valueAt v) es := by
  induction es generalizing c with
  | nil => simp
  | cons e es ih =>
    have hhead := getD_columnOf hc.valid hx
      (hknown.known e.1 (List.mem_map_of_mem List.mem_cons_self))
    have htail : Tally.Known ctx es := ⟨(List.pairwise_cons.mp hknown.sorted).2, fun key hkey =>
      hknown.known key (List.mem_cons_of_mem _ hkey)⟩
    rw [List.foldl_cons, ih htail (by rw [List.length_modify, hlength]),
      LinearProgram.sum_zipWith_modify hlength, hhead, weigh_cons]
    ring

/-- **The objective of a finished program** at a point. -/
theorem objective_finish (hc : ctx.Consistent) (hx : ctx.finish.Reads v x) :
    ctx.finish.program.objective x = ctx.model.sense.factor * ctx.objectiveAt v := by
  have hlength : (List.replicate ctx.columnCount (0 : ℚ)).length = x.length := by
    rw [List.length_replicate, hx.length_eq, columnCount_finish]
  have hzero : (List.zipWith (· * ·) (List.replicate ctx.columnCount (0 : ℚ)) x).sum = 0 := by
    refine List.sum_eq_zero fun q hq => ?_
    rw [List.mem_iff_getElem] at hq
    obtain ⟨i, hi, rfl⟩ := hq
    rw [List.getElem_zipWith, List.getElem_replicate, zero_mul]
  rw [LinearProgram.objective, Scalar.sum_rat]
  have hsum := sum_foldl_costs hc hx hc.objective hlength
  rw [hzero, zero_add] at hsum
  exact hsum

end GroundingContext

end RelationalLP
