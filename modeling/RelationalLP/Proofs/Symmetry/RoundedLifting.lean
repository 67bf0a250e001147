import Mathlib
import RelationalLP.Proofs.Symmetry.RoundedReductions

/-! # Lifting by rounded colours

Colour refinement keeps rows together whose numbers agree after rounding, and the reduced program keeps
one row of each class. At an expanded point the rows of a class therefore agree only up to the rounding:
the entries of a row may each be off by a millionth, and by a rounding error that grows with the entry.
Main statement: `lift_nearly_feasible`, for the reduction in exact numbers and for the one that is computed
in doubles. -/

namespace RelationalLP

/-- Lists that show the same under a function up to order pair up: items of a pair show the same. -/
theorem exists_forall₂_of_perm_map {α β : Type} {f : α → β} {xs ys : List α}
    (h : (xs.map f).Perm (ys.map f)) :
    ∃ zs, zs.Perm ys ∧ List.Forall₂ (fun a b => (a ∈ xs ∧ b ∈ ys) ∧ f a = f b) xs zs := by
  have hself : List.Forall₂ (fun b a => b = f a) (ys.map f) ys := by
    rw [List.forall₂_map_left_iff]
    exact List.forall₂_same.mpr fun _ _ => rfl
  obtain ⟨zs, hpairs, hperm⟩ := List.perm_comp_forall₂ h hself
  have hmem : List.Forall₂ (fun b a => b ∈ ys ∧ f a = f b) zs xs := by
    rw [List.forall₂_and_left]
    exact ⟨fun b hb => hperm.mem_iff.mp hb, (List.forall₂_map_left_iff.mp hpairs).flip⟩
  refine ⟨zs, hperm, ?_⟩
  simp only [and_assoc]
  rw [List.forall₂_and_left]
  exact ⟨fun a ha => ha, hmem.flip⟩

namespace LinearProgram

variable {lp : LinearProgram Double} {p : Partition} {ε δ : ℚ}

/-! ### Rows as stored entries -/

/-- The stored entries of a row. -/
def rowEntries (lp : LinearProgram Double) (i : ℕ) : List (Position × Double) :=
  lp.allEntries.filter (·.1.1 = i)

/-- The absolute values of the coordinates that a row reads, summed up. -/
def rowReach (lp : LinearProgram Double) (x : List ℚ) (i : ℕ) : ℚ :=
  ((lp.rowEntries i).map fun e => |x.getD e.1.2 0|).sum

/-- The absolute values of the products of a row, summed up. -/
def rowSize (lp : LinearProgram Double) (x : List ℚ) (i : ℕ) : ℚ :=
  ((lp.rowEntries i).map fun e => |x.getD e.1.2 0 * e.2.exact|).sum

theorem rowEntries_of_lt {i : ℕ} (hi : i < lp.inequalityCount) :
    lp.rowEntries i = lp.g.entries.filter (·.1.1 = i) := by
  have hnone : lp.a.entries.filter ((·.1.1 = i)
      ∘ fun e => (((e.1.1 + lp.inequalityCount, e.1.2), e.2) : Position × Double)) = [] := by
    rw [List.filter_eq_nil_iff]
    intro e _
    simp only [Function.comp_apply, decide_eq_true_eq]
    omega
  rw [rowEntries, allEntries, List.filter_append, List.filter_map, hnone, List.map_nil, List.append_nil]

theorem rowEntries_add (hinside : lp.EntriesInside) (k : ℕ) :
    lp.rowEntries (lp.inequalityCount + k)
      = (lp.a.entries.filter (·.1.1 = k)).map fun e => ((e.1.1 + lp.inequalityCount, e.1.2), e.2) := by
  have hnone : lp.g.entries.filter (·.1.1 = lp.inequalityCount + k) = [] := by
    rw [List.filter_eq_nil_iff]
    intro e he
    have hlt := (hinside.g e he).1
    rw [decide_eq_true_eq]
    omega
  rw [rowEntries, allEntries, List.filter_append, hnone, List.nil_append, List.filter_map]
  congr 1
  refine List.filter_congr fun e _ => ?_
  rw [Function.comp_apply, decide_eq_decide]
  show e.1.1 + _ = _ ↔ _
  omega

/-- The weight of a row reads the entries of the row. -/
theorem total_rowWeight (i : ℕ) (x : List ℚ) (es : List (Position × Double)) :
    total (SparseMatrix.rowWeight i x) es
      = ((es.filter (·.1.1 = i)).map fun e => x.getD e.1.2 0 * e.2.exact).sum := by
  induction es with
  | nil => rfl
  | cons e es ih =>
    rw [total_cons, ih, SparseMatrix.rowWeight]
    by_cases he : e.1.1 = i
    · rw [if_pos he, List.filter_cons_of_pos (by simpa using he), List.map_cons, List.sum_cons]
    · rw [if_neg he, List.filter_cons_of_neg (by simpa using he), zero_mul, zero_add]

theorem size_rowWeight (i : ℕ) (x : List ℚ) (es : List (Position × Double)) :
    size (SparseMatrix.rowWeight i x) es
      = ((es.filter (·.1.1 = i)).map fun e => |x.getD e.1.2 0 * e.2.exact|).sum := by
  induction es with
  | nil => rfl
  | cons e es ih =>
    rw [size_cons, ih, SparseMatrix.rowWeight]
    by_cases he : e.1.1 = i
    · rw [if_pos he, List.filter_cons_of_pos (by simpa using he), List.map_cons, List.sum_cons]
    · rw [if_neg he, List.filter_cons_of_neg (by simpa using he), zero_mul, abs_zero, zero_add]

theorem size_eq_rowSize_of_lt (x : List ℚ) {i : ℕ} (hi : i < lp.inequalityCount) :
    size (SparseMatrix.rowWeight i x) lp.g.entries = lp.rowSize x i := by
  rw [size_rowWeight, rowSize, rowEntries_of_lt hi]

theorem size_eq_rowSize_add (hinside : lp.EntriesInside) (x : List ℚ) (k : ℕ) :
    size (SparseMatrix.rowWeight k x) lp.a.entries = lp.rowSize x (lp.inequalityCount + k) := by
  rw [size_rowWeight, rowSize, rowEntries_add hinside, List.map_map]
  rfl

/-- The left side of a row is the sum over its stored entries. -/
theorem rowValue_exact (hlp : lp.exact.WellFormed) (hinside : lp.EntriesInside) (x : List ℚ) (i : ℕ) :
    lp.exact.rowValue x i = ((lp.rowEntries i).map fun e => x.getD e.1.2 0 * e.2.exact).sum := by
  rcases Nat.lt_or_ge i lp.inequalityCount with hi | hi
  · rw [rowValue_of_lt hlp x (by rwa [inequalityCount_exact]), rowEntries_of_lt hi, ← total_rowWeight,
      ← SparseMatrix.rowDot_exact]
    rfl
  · obtain ⟨k, rfl⟩ := Nat.exists_eq_add_of_le hi
    have hvalue := rowValue_add hlp x k
    rw [inequalityCount_exact] at hvalue
    rw [hvalue, rowEntries_add hinside, List.map_map]
    exact (SparseMatrix.rowDot_exact _ _ _).trans (total_rowWeight k x lp.a.entries)

/-! ### Colours of a program -/

/-- Numbers of one colour differ by at most `ε` and the part `δ` of the number, among the right sides of
inequalities, among those of equations, and among entries. -/
def ColorsWithin (lp : LinearProgram Double) (ε δ : ℚ) : Prop :=
  ∀ values ∈ [lp.h, lp.b, lp.allEntries.map Prod.snd], ∀ v ∈ values, ∀ w ∈ values,
    keyRank values v = keyRank values w → |v.exact - w.exact| ≤ ε + δ * |v.exact|

/-- **Finite numbers of one colour** differ by a millionth and a rounding error. -/
theorem colorsWithin_millionth (h : lp.IsFinite) : lp.ColorsWithin (1 / 1000000) (1 / 2 ^ 48) := by
  obtain ⟨-, hh, hb, hg, ha⟩ := isFinite_iff.mp h
  have hall : ∀ values ∈ [lp.h, lp.b, lp.allEntries.map Prod.snd], ∀ v ∈ values, v.isFinite := by
    simp only [List.forall_mem_cons, List.forall_mem_map, allEntries, List.forall_mem_append]
    exact ⟨hh, hb, ⟨hg, ha⟩, by simp⟩
  intro values hvalues v hv w hw hrank
  have hle := Double.abs_sub_le_of_colorKey_eq (hall values hvalues v hv) (hall values hvalues w hw)
    (colorKey_eq_of_keyRank_eq hv hw hrank)
  linarith

/-! ### Rows of one class -/

/-- Rows of one class have entries that pair up by colour and class of the column. -/
theorem exists_pairs_rowEntries (hinside : lp.EntriesInside)
    (he : p.Equitable (ColoredIncidence.ofProgram lp)) {i r : ℕ}
    (hi : i < lp.inequalityCount + lp.equationCount) (hr : r < lp.inequalityCount + lp.equationCount)
    (hclass : p.rowClasses[i]? = p.rowClasses[r]?) :
    ∃ zs, zs.Perm (lp.rowEntries r) ∧ List.Forall₂ (fun e d => (e ∈ lp.allEntries ∧ d ∈ lp.allEntries)
      ∧ keyRank (lp.allEntries.map Prod.snd) e.2 = keyRank (lp.allEntries.map Prod.snd) d.2
      ∧ p.colClasses[e.1.2]? = p.colClasses[d.1.2]?) (lp.rowEntries i) zs := by
  obtain ⟨edgeOf, hedgeOf⟩ : ∃ f : Position × Double → ColoredEdge,
    f = fun e => ⟨e.1.1, e.1.2, keyRank (lp.allEntries.map Prod.snd) e.2⟩ := ⟨_, rfl⟩
  have hedges : (ColoredIncidence.ofProgram lp).edges = lp.allEntries.map edgeOf :=
    hedgeOf ▸ edges_ofProgram lp
  have hsome : ∀ t, ∀ e ∈ (lp.rowEntries t).map edgeOf, (p.colClasses[e.col]?).isSome := by
    intro t e hmem
    obtain ⟨d, hd, rfl⟩ := List.mem_map.mp hmem
    have hcol := (hinside.allEntries d (List.mem_of_mem_filter hd)).2
    rw [← colCount_ofProgram, ← he.cols] at hcol
    simpa [hedgeOf] using hcol
  have hdegree : ∀ t color cls, p.rowDegree (ColoredIncidence.ofProgram lp) t color cls
      = ((lp.rowEntries t).map edgeOf).countP
          fun e => e.color = color ∧ p.colClasses[e.col]? = some cls := by
    intro t color cls
    rw [Partition.rowDegree, hedges, rowEntries, List.countP_map, List.countP_map,
      List.countP_filter]
    refine List.countP_congr fun e _ => ?_
    simp only [hedgeOf, Function.comp_apply, Bool.and_eq_true, decide_eq_true_eq]
    exact and_comm
  rw [← rowCount_ofProgram] at hi hr
  have hcount : ∀ color k, ((lp.rowEntries i).map edgeOf).countP
        (fun e => e.color = color ∧ p.colClasses[e.col]? = some k)
      = ((lp.rowEntries r).map edgeOf).countP
          fun e => e.color = color ∧ p.colClasses[e.col]? = some k := by
    intro color k
    rw [← hdegree, ← hdegree]
    exact he.rowDegrees i hi r hr hclass color k
  -- equal degrees for all colours and classes are equal multisets of both
  have hperm := (ColorRefinement.perm_iff_countP Sum.inr_injective (hsome i) (hsome r)).mpr hcount
  rw [List.map_map, List.map_map] at hperm
  obtain ⟨zs, hzs, hpairs⟩ := exists_forall₂_of_perm_map hperm
  refine ⟨zs, hzs, hpairs.imp fun e d h => ?_⟩
  obtain ⟨⟨hei, hdr⟩, hsame⟩ := h
  exact ⟨⟨List.mem_of_mem_filter hei, List.mem_of_mem_filter hdr⟩, by simpa [hedgeOf] using hsame⟩

/-- Sums over entries that pair up are near each other, and so are their sizes. -/
theorem abs_sum_sub_sum_le {x : List ℚ} {es ds : List (Position × Double)}
    (h : List.Forall₂ (fun e d => |e.2.exact - d.2.exact| ≤ ε + δ * |e.2.exact|
      ∧ x.getD e.1.2 0 = x.getD d.1.2 0) es ds) :
    |(es.map fun e => x.getD e.1.2 0 * e.2.exact).sum - (ds.map fun d => x.getD d.1.2 0 * d.2.exact).sum|
        ≤ ε * (es.map fun e => |x.getD e.1.2 0|).sum + δ * (es.map fun e => |x.getD e.1.2 0 * e.2.exact|).sum
      ∧ (ds.map fun d => |x.getD d.1.2 0 * d.2.exact|).sum
        ≤ (es.map fun e => |x.getD e.1.2 0 * e.2.exact|).sum + (ε * (es.map fun e => |x.getD e.1.2 0|).sum
          + δ * (es.map fun e => |x.getD e.1.2 0 * e.2.exact|).sum) := by
  induction h with
  | nil => simp
  | @cons e d es ds hpair _ ih =>
    obtain ⟨hvalue, hcoordinate⟩ := hpair
    obtain ⟨hsum, hsize⟩ := ih
    have hstep : |x.getD e.1.2 0 * e.2.exact - x.getD e.1.2 0 * d.2.exact|
        ≤ ε * |x.getD e.1.2 0| + δ * |x.getD e.1.2 0 * e.2.exact| := by
      have hscaled := mul_le_mul_of_nonneg_left hvalue (abs_nonneg (x.getD e.1.2 0))
      rw [← mul_sub, abs_mul, abs_mul]
      linarith
    simp only [List.map_cons, List.sum_cons]
    rw [← hcoordinate]
    constructor
    · rw [add_sub_add_comm]
      refine (abs_add_le _ _).trans ?_
      linarith
    · have hfar := abs_sub_abs_le_abs_sub (x.getD e.1.2 0 * d.2.exact) (x.getD e.1.2 0 * e.2.exact)
      rw [abs_sub_comm] at hfar
      linarith

/-- **Left sides of rows of one class** are near each other at an expanded point, and so are their sizes. -/
theorem abs_rowValue_sub_le (hlp : lp.exact.WellFormed) (hinside : lp.EntriesInside)
    (hcolors : lp.ColorsWithin ε δ) (he : p.Equitable (ColoredIncidence.ofProgram lp)) (y : List ℚ)
    {i r : ℕ} (hi : i < lp.inequalityCount + lp.equationCount)
    (hr : r < lp.inequalityCount + lp.equationCount) (hclass : p.rowClasses[i]? = p.rowClasses[r]?) :
    |lp.exact.rowValue (p.spread y) i - lp.exact.rowValue (p.spread y) r|
        ≤ ε * lp.rowReach (p.spread y) i + δ * lp.rowSize (p.spread y) i
      ∧ lp.rowSize (p.spread y) r ≤ lp.rowSize (p.spread y) i
        + (ε * lp.rowReach (p.spread y) i + δ * lp.rowSize (p.spread y) i) := by
  obtain ⟨zs, hzs, hpairs⟩ := exists_pairs_rowEntries hinside he hi hr hclass
  have hrsize : lp.rowSize (p.spread y) r
      = (zs.map fun e => |(p.spread y).getD e.1.2 0 * e.2.exact|).sum := (hzs.map _).sum_eq.symm
  rw [rowValue_exact hlp hinside, rowValue_exact hlp hinside, hrsize,
    ← (hzs.map fun e => (p.spread y).getD e.1.2 0 * e.2.exact).sum_eq]
  refine abs_sum_sub_sum_le (hpairs.imp fun e d h => ?_)
  obtain ⟨⟨hel, hdl⟩, hcolor, hcol⟩ := h
  constructor
  · exact hcolors _ (by simp) _ (List.mem_map_of_mem hel) _ (List.mem_map_of_mem hdl) hcolor
  · -- the expanded point has one value in the columns of a class
    have hclasses : p.colClasses.length = lp.columnCount := he.cols.trans (colCount_ofProgram lp)
    have hej := hclasses.symm ▸ (hinside.allEntries e hel).2
    have hdj := hclasses.symm ▸ (hinside.allEntries d hdl).2
    rw [Partition.getD_spread p y hej, Partition.getD_spread p y hdj, Partition.colClass,
      Partition.colClass, (getD_eq_iff hej hdj).mpr hcol]

/-- Right sides of inequalities of one class are near each other. -/
theorem abs_rightSide_sub_le_of_lt (hcolors : lp.ColorsWithin ε δ)
    (he : p.Equitable (ColoredIncidence.ofProgram lp)) {i r : ℕ} (hi : i < lp.inequalityCount)
    (hr : r < lp.inequalityCount) (hclass : p.rowClasses[i]? = p.rowClasses[r]?) :
    |lp.exact.rightSide i - lp.exact.rightSide r| ≤ ε + δ * |lp.exact.rightSide i| := by
  have hcolor := keyRank_inequality_eq he hi hr hclass
  have hside : ∀ {k : ℕ}, k < lp.inequalityCount → lp.exact.rightSide k = (lp.h.getD k 0).exact := by
    intro k hk
    rw [rightSide_of_lt (by rwa [inequalityCount_exact])]
    exact getD_map_exact lp.h k
  rw [hside hi, hside hr]
  exact hcolors _ (by simp) _ (getD_mem_of_lt hi 0) _ (getD_mem_of_lt hr 0) hcolor

/-- Right sides of equations of one class are near each other. -/
theorem abs_rightSide_sub_le_add (hcolors : lp.ColorsWithin ε δ)
    (he : p.Equitable (ColoredIncidence.ofProgram lp)) {i r : ℕ} (hi : i < lp.equationCount)
    (hr : r < lp.equationCount) (hclass : p.rowClasses[lp.inequalityCount + i]?
      = p.rowClasses[lp.inequalityCount + r]?) :
    |lp.exact.rightSide (lp.inequalityCount + i) - lp.exact.rightSide (lp.inequalityCount + r)|
      ≤ ε + δ * |lp.exact.rightSide (lp.inequalityCount + i)| := by
  have hcolor := keyRank_equation_eq he hi hr hclass
  have hside : ∀ k, lp.exact.rightSide (lp.inequalityCount + k) = (lp.b.getD k 0).exact := by
    intro k
    rw [← inequalityCount_exact, rightSide_add]
    exact getD_map_exact lp.b k
  rw [hside, hside]
  exact hcolors _ (by simp) _ (getD_mem_of_lt hi 0) _ (getD_mem_of_lt hr 0) hcolor

/-! ### Expanded points -/

/-- What a row may be off by because the colours of its class are rounded. -/
def colorSlack (lp : LinearProgram Double) (ε δ : ℚ) (x : List ℚ) (i : ℕ) : ℚ :=
  ε * (1 + lp.rowReach x i) + δ * (|lp.exact.rightSide i| + lp.rowSize x i)

/-- What a row may be off by when the sums of its kept row are rounded besides: one addition for each column,
relative to the size of that row. -/
def sumSlack (lp : LinearProgram Double) (ε δ : ℚ) (x : List ℚ) (i : ℕ) : ℚ :=
  lp.colorSlack ε δ x i + (growth lp.columnCount - 1) * (lp.rowSize x i + lp.colorSlack ε δ x i)

/-- Every row holds at a point up to a slack of its own. -/
def FeasibleWithin (lp : LinearProgram ℚ) (slack : ℕ → ℚ) (x : List ℚ) : Prop :=
  x.length = lp.columnCount ∧ ∀ i < lp.rowCount, lp.RowHoldsWithin (slack i) x i

/-- **Rows at an expanded point**: when the kept rows hold up to the part `τ` of their size, each row holds
up to the slack of its colours, and the part `τ` of its size and of that slack. -/
theorem feasibleWithin_of_kept (hlp : lp.exact.WellFormed) (hinside : lp.EntriesInside)
    (hcolors : lp.ColorsWithin ε δ) (he : p.Equitable (ColoredIncidence.ofProgram lp)) {y : List ℚ}
    {τ : ℚ} (hε : 0 ≤ ε) (hδ : 0 ≤ δ) (hτ : 0 ≤ τ)
    (hineq : ∀ r ∈ lp.keptInequalities p, lp.exact.g.rowDot r (p.spread y)
      ≤ lp.exact.h.getD r 0 + τ * size (SparseMatrix.rowWeight r (p.spread y)) lp.g.entries)
    (heq : ∀ r ∈ lp.keptEquations p, |lp.exact.a.rowDot r (p.spread y) - lp.exact.b.getD r 0|
      ≤ τ * size (SparseMatrix.rowWeight r (p.spread y)) lp.a.entries) :
    lp.exact.FeasibleWithin (fun i => lp.colorSlack ε δ (p.spread y) i
      + τ * (lp.rowSize (p.spread y) i + lp.colorSlack ε δ (p.spread y) i)) (p.spread y) := by
  have hrows : p.rowClasses.length = lp.inequalityCount + lp.equationCount :=
    he.rows.trans (rowCount_ofProgram lp)
  have hcols : p.colClasses.length = lp.columnCount := he.cols.trans (colCount_ofProgram lp)
  -- the rounding of the kept row is bounded by the size of this one
  have hrounded : ∀ {i r : ℕ}, lp.rowSize (p.spread y) r ≤ lp.rowSize (p.spread y) i
        + (ε * lp.rowReach (p.spread y) i + δ * lp.rowSize (p.spread y) i) →
      τ * lp.rowSize (p.spread y) r
        ≤ τ * (lp.rowSize (p.spread y) i + lp.colorSlack ε δ (p.spread y) i) := by
    intro i r hsize
    refine mul_le_mul_of_nonneg_left (hsize.trans (add_le_add_right ?_ _)) hτ
    have hside := mul_nonneg hδ (abs_nonneg (lp.exact.rightSide i))
    rw [colorSlack]
    linarith
  refine ⟨((Partition.length_spread p y).trans hcols).trans (columnCount_exact lp).symm, fun i hi => ?_⟩
  rw [rowCount, inequalityCount_exact, equationCount_exact] at hi
  rw [RowHoldsWithin, inequalityCount_exact]
  split
  · rename_i hlt
    -- the kept row of the class holds, and neither side is far from that of this row
    obtain ⟨r, hr, hrlt, hsame⟩ := exists_representative_take
      (show lp.inequalityCount ≤ p.rowClasses.length by omega) hlt
    have hkept := hineq r hr
    rw [size_eq_rowSize_of_lt _ hrlt, ← rowValue_of_lt hlp _ (by rwa [inequalityCount_exact]),
      ← rightSide_of_lt (by rwa [inequalityCount_exact])] at hkept
    obtain ⟨hvalue, hsize⟩ := abs_rowValue_sub_le hlp hinside hcolors he y hi (by omega) hsame
    have hside := abs_rightSide_sub_le_of_lt hcolors he hlt hrlt hsame
    have hround := hrounded hsize
    rw [abs_le] at hvalue hside
    simp only [colorSlack] at hround ⊢
    linarith
  · rename_i hge
    obtain ⟨k, rfl⟩ := Nat.exists_eq_add_of_le (not_lt.mp hge)
    obtain ⟨r, hr, hrlt, hsame⟩ := exists_representative_drop
      (show lp.inequalityCount + k < p.rowClasses.length by omega)
    have hkept := heq r hr
    rw [size_eq_rowSize_add hinside, ← rowValue_add hlp, ← rightSide_add, inequalityCount_exact] at hkept
    obtain ⟨hvalue, hsize⟩ := abs_rowValue_sub_le hlp hinside hcolors he y hi (by omega) hsame
    have hside := abs_rightSide_sub_le_add hcolors he (by omega) (by omega) hsame
    have hround := hrounded hsize
    rw [abs_le] at hkept hvalue hside ⊢
    simp only [colorSlack] at hround ⊢
    constructor <;> linarith

/-! ### Lifting -/

/-- Lifting in exact numbers: the colours are those of the doubles, and the exact values of the program are
reduced. -/
def liftExactly (lp : LinearProgram Double) (oracle : PartitionOracle) :
    Except LiftError (LiftedProgram ℚ) := do
  match ColoredIncidence.ofProgram? lp with
  | some incidence => lp.exact.liftWith (← oracle incidence)
  | none => .error .entryOutside

/-- **Lifting by rounded colours is nearly lossless.** When a program of doubles that passes the checks is
lifted by colour refinement, so is it in exact numbers, and then a feasible point of the reduced program
expands to a point with the same objective at which each row holds up to the slack of its colours: a
millionth for the right side and for each coordinate that it reads, and the part `2 ^ (-48)` of its right
side and of its size. Where numbers of one colour are equal, so that rounding merges nothing, the expanded
point is feasible. The reduced program of doubles has the same expansion; its sums are rounded, so that a row
and the objective are besides off by one addition for each column. -/
theorem lift_nearly_feasible (lp : LinearProgram Double) (hg : lp.g.WellFormed) (ha : lp.a.WellFormed)
    (hvalid : lp.validate = .ok ()) {l : LiftedProgram Double}
    (hl : lp.lift ColorRefinement.partition = .ok l) :
    ∃ l', lp.liftExactly ColorRefinement.partition = .ok l'
      ∧ (∀ y, l'.reduced.Feasible y →
          lp.exact.FeasibleWithin (lp.colorSlack (1 / 1000000) (1 / 2 ^ 48) (l'.expand y)) (l'.expand y)
            ∧ (lp.ColorsWithin 0 0 → lp.exact.Feasible (l'.expand y))
            ∧ lp.exact.objective (l'.expand y) = l'.reduced.objective y)
      ∧ (l.reduced.IsFinite → ∀ y, l.reduced.exact.Feasible y →
          l.basis.exact.mulVec y = l'.expand y
            ∧ lp.exact.FeasibleWithin (lp.sumSlack (1 / 1000000) (1 / 2 ^ 48) (l'.expand y)) (l'.expand y)
            ∧ |l.reduced.exact.objective y - lp.exact.objective (l'.expand y)|
              ≤ (growth lp.columnCount - 1) * lp.objectiveSize (l'.expand y)) := by
  have hlp := wellFormed_exact hg ha hvalid
  have hinside := entriesInside_of_validate hg ha fun _ _ _ hsize => nomatch hvalid.symm.trans hsize
  have hcolors := colorsWithin_millionth (isFinite_of_validate_eq_ok hvalid)
  obtain ⟨hgc, hac, -, -⟩ := sizes_of_validate fun _ _ _ hsize => nomatch hvalid.symm.trans hsize
  obtain ⟨p, hincidence, hpartition, he, hN, hlift⟩ := exists_equitable_of_lift hinside.allEntries hl
  have hcols : p.colClasses.length = lp.columnCount := he.cols.trans (colCount_ofProgram lp)
  have hcols' : p.colClasses.length = lp.exact.columnCount := by rwa [columnCount_exact]
  have hN' : ∀ j < lp.exact.columnCount, p.colClass j < p.colClassCount := by rwa [columnCount_exact]
  obtain rfl := eq_of_liftWith_eq_ok hlift
  -- the reduction in exact numbers passes the checks that the reduction of the doubles passed
  obtain ⟨_, hcheck, -⟩ := bind_eq_ok_iff.mp hlift
  have hcheck' : lp.exact.checkPartition p = .ok () := by
    rwa [checkPartition, inequalityCount_exact, equationCount_exact, columnCount_exact]
  have hexact : lp.liftExactly ColorRefinement.partition
      = .ok { reduced := lp.exact.reduction p, basis := lp.exact.expansion p } := by
    rw [liftExactly, hincidence]
    simp only [hpartition]
    exact liftWith_eq_ok hcheck' hlp hcols' hN'
  have hexpand : ∀ y, LiftedProgram.expand ⟨lp.exact.reduction p, lp.exact.expansion p⟩ y = p.spread y :=
    fun y => mulVec_expansion hcols' y
  have hmillionth : (0 : ℚ) ≤ 1 / 1000000 := by norm_num
  have hpart : (0 : ℚ) ≤ 1 / 2 ^ 48 := by positivity
  refine ⟨_, hexact, fun y hy => ?_, fun hfin y hy => ?_⟩
  · obtain ⟨-, hineq, heq⟩ := (feasible_reduction_iff_kept hlp hcols' y).mp hy
    rw [keptInequalities, inequalityCount_exact] at hineq
    rw [keptEquations, inequalityCount_exact] at heq
    have hwithin : ∀ {ε δ : ℚ}, lp.ColorsWithin ε δ → 0 ≤ ε → 0 ≤ δ →
        lp.exact.FeasibleWithin (lp.colorSlack ε δ (p.spread y)) (p.spread y) := by
      intro ε δ hcolors hε hδ
      have hall := feasibleWithin_of_kept hlp hinside hcolors he (y := y) hε hδ le_rfl
        (fun r hr => by rw [zero_mul, add_zero]; exact hineq r hr)
        (fun r hr => by rw [zero_mul, heq r hr, sub_self, abs_zero])
      simpa only [zero_mul, add_zero] using hall
    rw [hexpand]
    refine ⟨hwithin hcolors hmillionth hpart, fun hequal => ?_, (objective_reduction hcols' hN' y).symm⟩
    obtain ⟨hlen, hholds⟩ := hwithin hequal le_rfl le_rfl
    refine (feasible_iff_rowHolds hlp _).mpr ⟨hlen, fun i hi => ?_⟩
    have hrow := hholds i hi
    rwa [colorSlack, zero_mul, zero_mul, add_zero, rowHoldsWithin_zero] at hrow
  · obtain ⟨hineq, heq⟩ := kept_of_feasible hg ha hgc hac hcols hfin hy
    rw [hexpand]
    exact ⟨mulVec_exact_expansion hcols y, feasibleWithin_of_kept hlp hinside hcolors he hmillionth hpart
      (sub_nonneg.mpr (one_le_growth _)) hineq heq, abs_objective_reduction_sub_le hcols hN hfin y⟩

/-- Two inequalities on one column whose coefficients agree after rounding. -/
def nearlyEqualRows : LinearProgram Double where
  c := [-1]
  g := .ofTriplets 2 1 [((0, 0), 1), ((1, 0), 1.0000004)]
  h := [1e6, 1e6]
  a := .ofTriplets 0 1 []
  b := []

/-- Both rows fall into one class. -/
theorem partition_nearlyEqualRows :
    ColoredIncidence.ofProgram? nearlyEqualRows = some ⟨2, [0, 0], [0], [⟨0, 0, 0⟩, ⟨1, 0, 0⟩]⟩
      ∧ ColorRefinement.partition ⟨2, [0, 0], [0], [⟨0, 0, 0⟩, ⟨1, 0, 0⟩]⟩ = .ok ⟨[0, 0], [0]⟩ := by
  have hsides : (nearlyEqualRows.h.map colorKey).Pairwise fun x y => (compare x y).isLE := by
    decide +kernel
  have hentries : ((nearlyEqualRows.allEntries.map Prod.snd).map colorKey).Pairwise
      fun x y => (compare x y).isLE := by decide +kernel
  have hcolors : ColorRefinement.stableColors ⟨2, [0, 0], [0], [⟨0, 0, 0⟩, ⟨1, 0, 0⟩]⟩
      = [0, 0, 1] := by cbv
  rw [allEntries] at hentries
  constructor
  · rw [ColoredIncidence.ofProgram?, if_pos (by decide +kernel), ColoredIncidence.ofProgram,
      palette_of_pairwise hsides]
    dsimp only
    rw [palette_of_pairwise hentries]
    decide +kernel
  · rw [ColorRefinement.partition, if_pos (by decide), hcolors]
    rfl

theorem lift_nearlyEqualRows : nearlyEqualRows.lift ColorRefinement.partition
    = .ok { reduced := nearlyEqualRows.reduction ⟨[0, 0], [0]⟩,
            basis := nearlyEqualRows.expansion ⟨[0, 0], [0]⟩ } := by
  obtain ⟨hincidence, hpartition⟩ := partition_nearlyEqualRows
  have hsome : (nearlyEqualRows.liftWith ⟨[0, 0], [0]⟩).toBool = true := by decide +kernel
  rw [lift, hincidence]
  simp only [hpartition, bind, Except.bind]
  cases hlift : nearlyEqualRows.liftWith ⟨[0, 0], [0]⟩ with
  | error e => rw [hlift] at hsome; cases hsome
  | ok l => rw [eq_of_liftWith_eq_ok hlift]

/-- The second row of the nearly equal ones is missed by less than what its colour allows, in exact numbers
and in doubles. -/
theorem lift_nearly_feasible_nearlyEqualRows :
    nearlyEqualRows.g.WellFormed ∧ nearlyEqualRows.a.WellFormed
      ∧ nearlyEqualRows.validate = .ok ()
      ∧ ∃ l l', nearlyEqualRows.lift ColorRefinement.partition = .ok l
        ∧ nearlyEqualRows.liftExactly ColorRefinement.partition = .ok l'
        ∧ (l'.reduced.Feasible [1000000] ∧ nearlyEqualRows.exact.FeasibleWithin
            (nearlyEqualRows.colorSlack (1 / 1000000) (1 / 2 ^ 48) (l'.expand [1000000]))
            (l'.expand [1000000]))
        ∧ l.reduced.IsFinite ∧ l.reduced.exact.Feasible [1000000]
        ∧ l.basis.exact.mulVec [1000000] = l'.expand [1000000] := by
  have hg : nearlyEqualRows.g.WellFormed := SparseMatrix.wellFormed_ofTriplets (by decide)
  have ha : nearlyEqualRows.a.WellFormed := SparseMatrix.wellFormed_ofTriplets (by decide)
  have hvalid : nearlyEqualRows.validate = .ok () := by decide +kernel
  obtain ⟨l', hl', hexact, hrounded⟩ :=
    lift_nearly_feasible nearlyEqualRows hg ha hvalid lift_nearlyEqualRows
  have hfeasible : l'.reduced.Feasible [1000000] := by
    obtain ⟨hincidence, hpartition⟩ := partition_nearlyEqualRows
    have hlift := hl'
    rw [liftExactly, hincidence] at hlift
    simp only [hpartition, bind, Except.bind] at hlift
    rw [eq_of_liftWith_eq_ok hlift]
    decide +kernel
  have hfinite : (nearlyEqualRows.reduction ⟨[0, 0], [0]⟩).IsFinite :=
    isFinite_of_validate_eq_ok (by decide +kernel)
  have hreduced : (nearlyEqualRows.reduction ⟨[0, 0], [0]⟩).exact.Feasible [1000000] := by decide +kernel
  exact ⟨hg, ha, hvalid, _, l', lift_nearlyEqualRows, hl', ⟨hfeasible, (hexact _ hfeasible).1⟩, hfinite,
    hreduced, (hrounded hfinite _ hreduced).1⟩

/-- **Lifted points need not be feasible within a millionth**: the nearly equal rows are kept as one, and
the expanded point exceeds the right side of the other one by two fifths. -/
theorem lift_infeasible_within_millionth :
    nearlyEqualRows.g.WellFormed ∧ nearlyEqualRows.a.WellFormed
      ∧ nearlyEqualRows.validate = .ok ()
      ∧ ∃ l, nearlyEqualRows.lift ColorRefinement.partition = .ok l
        ∧ l.reduced.exact.Feasible [1000000]
        ∧ nearlyEqualRows.exact.isFeasible? (l.basis.exact.mulVec [1000000]) (1 / 1000000) = some false := by
  exact ⟨SparseMatrix.wellFormed_ofTriplets (by decide), SparseMatrix.wellFormed_ofTriplets (by decide),
    by decide +kernel, _, lift_nearlyEqualRows, by decide +kernel, by decide +kernel⟩

end LinearProgram

end RelationalLP
