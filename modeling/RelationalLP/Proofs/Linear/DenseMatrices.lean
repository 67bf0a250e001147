import Mathlib
import RelationalLP.Number.Double
import RelationalLP.Proofs.Linear.Matrix

/-! # Sparse matrices as dense ones

A dense matrix has a number for each cell. A sparse matrix whose entries are sorted, inside and not zero is
read as one dense matrix by everything that reads it: its cells, its rows, its list of rows and its products.
The operations on matrices are those of the dense matrices in exact arithmetic: triplets are summed by cell,
selected rows stand in the given order, and the columns of a class are added up. -/

namespace RelationalLP

/-- **Numbers whose zero has the value zero.** -/
class Scalar.LawfulZero (K : Type) [Scalar K] : Prop where
  /-- Zero has the value zero. -/
  isZero_zero : Scalar.isZero (0 : K) = true

instance : Scalar.LawfulZero ℚ := ⟨rfl⟩

instance : Scalar.LawfulZero Double := ⟨by decide⟩

/-- **A dense matrix**: a number for each cell, zero outside. -/
structure DenseMatrix (K : Type) [Scalar K] where
  /-- The number of rows. -/
  rows : ℕ
  /-- The number of columns. -/
  cols : ℕ
  /-- The number in a row and a column. -/
  cell : ℕ → ℕ → K
  /-- There is nothing outside. -/
  cell_outside : ∀ i j, ¬ (i < rows ∧ j < cols) → cell i j = 0

namespace DenseMatrix

section Reading

variable {K : Type} [Scalar K]

/-- The cells of a row that are not zero, with their columns. -/
def row (d : DenseMatrix K) (i : ℕ) : List (ℕ × K) :=
  (List.range d.cols).filterMap fun j =>
    if Scalar.isZero (d.cell i j) then none else some (j, d.cell i j)

/-- All cells, row by row, as far as they can be held. -/
def toLists? (d : DenseMatrix K) : Option (List (List K)) :=
  if d.cols ≤ Word.greatestLength ∧ d.rows ≤ Word.greatestLength / 3 then
    some ((List.range d.rows).map fun i => (List.range d.cols).map fun j => d.cell i j)
  else none

/-- The product with a vector: each row sums the products of its cells that are not zero, from the left. -/
def mulVec (d : DenseMatrix K) (x : List K) : List K :=
  (List.range d.rows).map fun i => (d.row i).foldl (fun total (j, v) => total + v * x.getD j 0) 0

end Reading

/-! ### Operations in exact arithmetic -/

/-- The sums of some triplets by cell. -/
def ofTriplets (rows cols : ℕ) (ts : List (Position × ℚ)) : DenseMatrix ℚ where
  rows := rows
  cols := cols
  cell i j := if i < rows ∧ j < cols then ((ts.filter fun t => t.1 = (i, j)).map Prod.snd).sum else 0
  cell_outside _ _ h := if_neg h

/-- The given rows in that order; a row past the end is zero. -/
def selectRows (d : DenseMatrix ℚ) (rows : List ℕ) : DenseMatrix ℚ where
  rows := rows.length
  cols := d.cols
  cell k j := (rows[k]?.map fun i => d.cell i j).getD 0
  cell_outside k j h := by
    by_cases hk : k < rows.length
    · have hj : ¬ j < d.cols := fun hj => h ⟨hk, hj⟩
      rw [List.getElem?_eq_getElem hk]
      exact d.cell_outside _ _ fun hin => hj hin.2
    · rw [List.getElem?_eq_none (not_lt.mp hk)]
      rfl

/-- The sums of the columns of each class. -/
def mergeColumns (d : DenseMatrix ℚ) (classes : List ℕ) (cols : ℕ) : DenseMatrix ℚ where
  rows := d.rows
  cols := cols
  cell i c := if c < cols then ∑ j ∈ Finset.range d.cols with classes[j]? = some c, d.cell i j else 0
  cell_outside i c h := by
    split
    · rename_i hc
      exact Finset.sum_eq_zero fun j _ => d.cell_outside i j fun hin => h ⟨hin.1, hc⟩
    · rfl

/-- The product with a vector, all cells counted. -/
def product (d : DenseMatrix ℚ) (x : List ℚ) : List ℚ :=
  (List.range d.rows).map fun i => ∑ j ∈ Finset.range d.cols, d.cell i j * x.getD j 0

/-- The loop over the cells that are not zero sums up all of them. -/
theorem foldl_nonzero (f : ℕ → ℚ) (x : List ℚ) (n : ℕ) :
    ((List.range n).filterMap fun j => if Scalar.isZero (f j) then none else some (j, f j)).foldl
        (fun total e => total + e.2 * x.getD e.1 0) 0
      = ∑ j ∈ Finset.range n, f j * x.getD j 0 := by
  induction n with
  | zero => rfl
  | succ n ih =>
    rw [List.range_succ, List.filterMap_append, List.foldl_append, ih, Finset.sum_range_succ]
    by_cases hzero : f n = 0 <;> simp [hzero]

/-- **Cells of value zero may be counted** in exact arithmetic. -/
theorem mulVec_eq_product (d : DenseMatrix ℚ) (x : List ℚ) : d.mulVec x = d.product x :=
  List.map_congr_left fun i _ => foldl_nonzero (d.cell i) x d.cols

end DenseMatrix

namespace SparseMatrix

section Reading

variable {K : Type} [Scalar K]

/-- **A matrix in canonical form**: entries sorted by position, each within the size and not zero. -/
structure Canonical (m : SparseMatrix K) : Prop extends m.WellFormed where
  /-- No entry has the value zero. -/
  nonzero : ∀ e ∈ m.entries, Scalar.isZero e.2 = false

/-- **One dense matrix is read**, whatever reads the sparse one. -/
structure ReadsAs (m : SparseMatrix K) (d : DenseMatrix K) : Prop where
  /-- It has as many rows. -/
  rows_eq : m.rows = d.rows
  /-- It has as many columns. -/
  cols_eq : m.cols = d.cols
  /-- Its cells are read one by one. -/
  get_eq : ∀ i j, m.get i j = d.cell i j
  /-- Its rows are read without their zeros. -/
  row_eq : ∀ i, m.row i = d.row i
  /-- All its cells are read. -/
  toDense?_eq : m.toDense? = d.toLists?
  /-- It is multiplied with every vector that has a cell for each column. -/
  mulVec?_eq : ∀ x, x.length = d.cols → d.rows ≤ Word.greatestLength → m.mulVec? x = some (d.mulVec x)

variable {m : SparseMatrix K} {d : DenseMatrix K}

/-- A stored number is the one that is read at its position. -/
theorem WellFormed.get_of_mem (h : m.WellFormed) {i j : ℕ} {v : K} (he : ((i, j), v) ∈ m.entries) :
    m.get i j = v := by
  obtain ⟨before, after, heq⟩ := List.append_of_mem he
  have hnodup := h.sorted.nodup
  rw [heq, List.map_append, List.map_cons, List.nodup_middle, List.nodup_cons] at hnodup
  have hlookup : m.entries.lookup (i, j) = some v := by
    refine List.lookup_eq_some_iff.mpr ⟨before, after, heq, fun e hmem => bne_iff_ne.mpr ?_⟩
    rintro heq'
    exact hnodup.1 (List.mem_append_left _ (List.mem_map.mpr ⟨e, hmem, heq'.symm⟩))
  rw [get_eq_lookup h.sorted, hlookup]
  rfl

/-- What is read where nothing is stored is zero. -/
theorem WellFormed.get_of_notMem (h : m.WellFormed) {i j : ℕ} (hp : (i, j) ∉ m.entries.map Prod.fst) :
    m.get i j = 0 := by
  have hlookup : m.entries.lookup (i, j) = none := by
    refine List.lookup_eq_none_iff.mpr fun e he => bne_iff_ne.mpr ?_
    rintro heq
    exact hp (List.mem_map.mpr ⟨e, he, heq.symm⟩)
  rw [get_eq_lookup h.sorted, hlookup]
  rfl

/-- **The stored entries are the cells that are not zero.** -/
theorem Canonical.mem_entries_iff [Scalar.LawfulZero K] (h : m.Canonical) {i j : ℕ} {v : K} :
    ((i, j), v) ∈ m.entries ↔ Scalar.isZero (m.get i j) = false ∧ v = m.get i j := by
  constructor
  · intro he
    rw [h.get_of_mem he]
    exact ⟨h.nonzero _ he, rfl⟩
  · rintro ⟨hzero, rfl⟩
    by_cases hmem : (i, j) ∈ m.entries.map Prod.fst
    · obtain ⟨⟨_, v⟩, he, rfl⟩ := List.mem_map.mp hmem
      rwa [h.get_of_mem he]
    · rw [h.get_of_notMem hmem, Scalar.LawfulZero.isZero_zero] at hzero
      cases hzero

omit [Scalar K] in
/-- Entries that are written into a row replace its cells at their columns. -/
theorem getElem?_foldl_set {es : List (Position × K)} (h : (es.map Prod.fst).Nodup) (cells : List K)
    (i j : ℕ) : (es.foldl (fun cells e => if e.1.1 = i then cells.set e.1.2 e.2 else cells) cells)[j]?
      = cells[j]?.map fun fill => (es.lookup (i, j)).getD fill := by
  induction es generalizing cells with
  | nil => simp
  | cons e es ih =>
    obtain ⟨p, v⟩ := e
    obtain ⟨hp, hes⟩ := List.nodup_cons.mp h
    rw [List.foldl_cons, ih hes, Tally.lookup_cons_eq_ite]
    by_cases hpos : (i, j) = p
    · subst hpos
      -- the position is not written a second time
      have hlookup : es.lookup (i, j) = none := by
        refine List.lookup_eq_none_iff.mpr fun d hd => bne_iff_ne.mpr fun heq => hp ?_
        exact List.mem_map.mpr ⟨d, hd, heq.symm⟩
      simp only [hlookup, if_pos, List.getElem?_set_self', Option.getD_none, Option.getD_some,
        Option.map_id']
      rfl
    · rw [if_neg hpos]
      split
      · rename_i hrow
        rw [List.getElem?_set_ne fun hcol => hpos (Prod.ext hrow.symm hcol.symm)]
      · rfl

/-- **The list of rows has the cells that are read one by one.** -/
theorem WellFormed.toDense_eq (h : m.WellFormed) :
    m.toDense = (List.range m.rows).map fun i => (List.range m.cols).map fun j => m.get i j := by
  refine List.ext_getElem? fun i => ?_
  have hrow := getElem?_foldl_modify (fun e : Position × K => e.1.1)
    (fun e cells => cells.set e.1.2 e.2) m.entries (List.replicate m.rows (List.replicate m.cols 0)) i
  refine hrow.trans ?_
  rw [List.getElem?_map, List.getElem?_replicate]
  by_cases hi : i < m.rows
  · rw [if_pos hi, List.getElem?_range hi, Option.map_some, Option.map_some, Option.some.injEq]
    refine List.ext_getElem? fun j => ?_
    rw [getElem?_foldl_set h.sorted.nodup, List.getElem?_map, List.getElem?_replicate]
    by_cases hj : j < m.cols
    · rw [if_pos hj, List.getElem?_range hj, Option.map_some, Option.map_some, get_eq_lookup h.sorted]
    · rw [if_neg hj, List.getElem?_eq_none (by simpa using hj)]
      rfl
  · rw [if_neg hi, List.getElem?_eq_none (by simpa using hi)]
    rfl

/-- **A canonical matrix is read as a dense one** where their cells are the same. -/
theorem Canonical.readsAs [Scalar.LawfulZero K] (h : m.Canonical) (hrows : m.rows = d.rows)
    (hcols : m.cols = d.cols) (hget : ∀ i j, m.get i j = d.cell i j) : m.ReadsAs d := by
  have hrow : ∀ i, m.row i = d.row i := by
    intro i
    have hsorted : (d.row i).Pairwise fun e f => e.1 < f.1 := by
      rw [DenseMatrix.row, List.pairwise_filterMap]
      refine List.pairwise_lt_range.imp fun {j k} hjk => ?_
      intro b hb c hc
      simp only [Option.ite_none_left_eq_some] at hb hc
      obtain ⟨-, ⟨⟩⟩ := hb
      obtain ⟨-, ⟨⟩⟩ := hc
      exact hjk
    have hmem : ∀ e, e ∈ m.row i ↔ e ∈ d.row i := by
      rintro ⟨j, v⟩
      rw [mem_row h.sorted, h.mem_entries_iff, hget, DenseMatrix.row, List.mem_filterMap]
      simp only [List.mem_range, Option.ite_none_left_eq_some, Option.some.injEq, Prod.mk.injEq]
      constructor
      · rintro ⟨hzero, rfl⟩
        refine ⟨j, ?_, by simp [hzero], rfl, rfl⟩
        -- a cell that is not zero is not outside
        by_contra hj
        rw [d.cell_outside i j fun hin => hj hin.2, Scalar.LawfulZero.isZero_zero] at hzero
        cases hzero
      · rintro ⟨k, -, hzero, rfl, rfl⟩
        exact ⟨by simpa using hzero, rfl⟩
    have hnodup : ∀ {es : List (ℕ × K)}, es.Pairwise (fun e f => e.1 < f.1) → es.Nodup :=
      fun hes => hes.imp fun hlt heq => absurd (heq ▸ hlt) (lt_irrefl _)
    exact ((List.perm_ext_iff_of_nodup (hnodup (pairwise_row h.sorted i)) (hnodup hsorted)).mpr
      hmem).eq_of_pairwise (fun _ _ _ _ hef hfe => absurd hfe hef.asymm) (pairwise_row h.sorted i) hsorted
  refine ⟨hrows, hcols, hget, hrow, ?_, fun x hx hheld => ?_⟩
  · simp only [toDense?, h.toDense_eq, DenseMatrix.toLists?, hrows, hcols, hget]
  · rw [mulVec?, if_pos ⟨hx.trans hcols.symm, hrows.le.trans hheld⟩, mulVec_eq_map_rowDot]
    simp only [DenseMatrix.mulVec, rowDot_eq_foldl_row h.sorted, hrows, hrow]

/-- A canonical matrix is read as some dense one. -/
theorem Canonical.exists_readsAs [Scalar.LawfulZero K] (h : m.Canonical) :
    ∃ d : DenseMatrix K, m.ReadsAs d := by
  refine ⟨⟨m.rows, m.cols, m.get, fun i j hout => h.get_of_notMem fun hmem => hout ?_⟩,
    h.readsAs rfl rfl fun _ _ => rfl⟩
  obtain ⟨e, he, heq⟩ := List.mem_map.mp hmem
  have hin := h.inside e he
  rwa [heq] at hin

/-! ### Operations -/

/-- Triplets inside the size make a canonical matrix. -/
theorem canonical_ofTriplets {rows cols : ℕ} {ts : List (Position × K)}
    (h : ∀ t ∈ ts, t.1.1 < rows ∧ t.1.2 < cols) : (ofTriplets rows cols ts).Canonical where
  toWellFormed := wellFormed_ofTriplets h
  nonzero e he := by simpa using (List.mem_filter.mp he).2

/-- Selected rows make a canonical matrix. -/
theorem WellFormed.canonical_selectRows (h : m.WellFormed) (rows : List ℕ) :
    (m.selectRows rows).Canonical where
  sorted := (Tally.sorted_ofList _).filter _
  inside := inside_selectRows h rows
  nonzero e he := by simpa using (List.mem_filter.mp he).2

/-- **Columns are merged** when every entry has a class, which is a column of the result. -/
theorem mergeColumns?_eq_some_iff {classes : List ℕ} {cols : ℕ} {m' : SparseMatrix K} :
    m.mergeColumns? classes cols = some m' ↔ m' = m.mergeColumns (classes.getD · 0) cols
      ∧ ∀ e ∈ m.entries, e.1.1 < m.rows ∧ ∃ c < cols, classes[e.1.2]? = some c := by
  rw [mergeColumns?, Option.ite_none_right_eq_some, and_comm, Option.some.injEq,
    eq_comm (b := m'), List.all_eq_true]
  refine and_congr_right fun _ => forall₂_congr fun e _ => ?_
  simp only [Bool.and_eq_true, decide_eq_true_eq, inRange]
  constructor
  · rintro ⟨hlt, hrow, hclass⟩
    rw [List.getD_eq_getElem _ _ hlt] at hclass
    exact ⟨hrow, _, hclass, List.getElem?_eq_getElem hlt⟩
  · rintro ⟨hrow, c, hc, hclass⟩
    obtain ⟨hlt, -⟩ := List.getElem?_eq_some_iff.mp hclass
    refine ⟨hlt, hrow, ?_⟩
    rwa [List.getD_eq_getElem?_getD, hclass]

/-- Merged columns make a canonical matrix. -/
theorem canonical_of_mergeColumns? {classes : List ℕ} {cols : ℕ} {m' : SparseMatrix K}
    (h : m.mergeColumns? classes cols = some m') : m'.Canonical := by
  obtain ⟨rfl, hclasses⟩ := mergeColumns?_eq_some_iff.mp h
  refine canonical_ofTriplets fun t ht => ?_
  obtain ⟨e, he, rfl⟩ := List.mem_map.mp ht
  obtain ⟨hrow, c, hc, hclass⟩ := hclasses e he
  refine ⟨hrow, ?_⟩
  dsimp only
  rwa [List.getD_eq_getElem?_getD, hclass]

end Reading

/-! ### Cells in exact arithmetic -/

/-- The weight of the indicator of a position is the sum of the numbers there. -/
theorem weigh_indicator (p : Position) (ts : List (Position × ℚ)) :
    weigh (indicator p) ts = ((ts.filter fun t => t.1 = p).map Prod.snd).sum := by
  induction ts with
  | nil => rfl
  | cons t ts ih =>
    rw [weigh_cons, ih, indicator]
    by_cases h : t.1 = p <;> simp [h]

/-- The indicator of a cell picks out its row and then its column. -/
theorem indicator_apply (i j : ℕ) (p : Position) :
    indicator (i, j) p = if p.1 = i then (if p.2 = j then 1 else 0) else 0 := by
  rw [indicator, ← ite_and]
  exact if_congr Prod.ext_iff rfl rfl

theorem indicator_eq_ite (i j : ℕ) :
    indicator (i, j) = fun p => if p.1 = i then (if p.2 = j then 1 else 0) else 0 :=
  funext (indicator_apply i j)

/-- The cells of selected rows are those of the rows. -/
theorem get_selectRows {m : SparseMatrix ℚ} (h : m.WellFormed) (rows : List ℕ) (k j : ℕ) :
    (m.selectRows rows).get k j = (rows[k]?.map fun i => m.get i j).getD 0 := by
  rw [get_eq_weigh (h.canonical_selectRows rows).toWellFormed, indicator_eq_ite,
    weigh_selectRows (fun c => if c = j then 1 else 0) h.sorted]
  simp only [get_eq_weigh h, indicator_eq_ite]

/-- **A cell of merged columns** is the sum of the cells of its class. -/
theorem get_of_mergeColumns? {m m' : SparseMatrix ℚ} (h : m.WellFormed) {classes : List ℕ} {cols : ℕ}
    (hm' : m.mergeColumns? classes cols = some m') (i c : ℕ) :
    m'.get i c = ∑ j ∈ Finset.range m.cols with classes[j]? = some c, m.get i j := by
  obtain ⟨rfl, hclasses⟩ := mergeColumns?_eq_some_iff.mp hm'
  -- merging moves an entry to the cell of its class, so it counts there exactly once
  have hweight : ∀ e ∈ m.entries, indicator (i, c) (e.1.1, classes.getD e.1.2 0)
      = ∑ j ∈ Finset.range m.cols with classes[j]? = some c, indicator (i, j) e.1 := by
    intro e he
    obtain ⟨-, c', -, hclass⟩ := hclasses e he
    have hcol := Finset.mem_range.mpr (h.inside e he).2
    have hterm : ∀ j, indicator (i, j) e.1 = if j = e.1.2 then (if e.1.1 = i then 1 else 0) else 0 := by
      intro j
      rw [indicator_apply, ← ite_and, ← ite_and]
      exact if_congr (by rw [and_comm, eq_comm (a := e.1.2)]) rfl rfl
    have hclass' : classes.getD e.1.2 0 = c' := by rw [List.getD_eq_getElem?_getD, hclass, Option.getD_some]
    simp only [hterm]
    rw [indicator_apply, hclass', Finset.sum_ite_eq', ← ite_and, ← ite_and]
    refine if_congr ?_ rfl rfl
    rw [Finset.mem_filter, hclass, Option.some.injEq, and_iff_right hcol, and_comm]
  rw [mergeColumns, get_ofTriplets, weigh_map (indicator (i, c)) fun p => (p.1, classes.getD p.2 0)]
  calc weigh (indicator (i, c) ∘ fun p => (p.1, classes.getD p.2 0)) m.entries
      = weigh (fun p => ∑ j ∈ Finset.range m.cols with classes[j]? = some c, indicator (i, j) p)
          m.entries := weigh_congr hweight
    _ = ∑ j ∈ Finset.range m.cols with classes[j]? = some c, m.get i j := by
      rw [weigh_sum]
      exact Finset.sum_congr rfl fun j _ => (get_eq_weigh h i j).symm

section Exact

variable {m m' : SparseMatrix ℚ} {d : DenseMatrix ℚ}

/-- **A matrix of triplets sums them by cell.** -/
theorem readsAs_ofTriplets {rows cols : ℕ} {ts : List (Position × ℚ)}
    (h : ∀ t ∈ ts, t.1.1 < rows ∧ t.1.2 < cols) :
    (ofTriplets rows cols ts).ReadsAs (.ofTriplets rows cols ts) := by
  refine (canonical_ofTriplets h).readsAs rfl rfl fun i j => ?_
  rw [get_ofTriplets]
  simp only [DenseMatrix.ofTriplets]
  split
  · exact weigh_indicator _ _
  · rename_i hout
    refine weigh_indicator_of_notMem fun hmem => hout ?_
    obtain ⟨t, ht, heq⟩ := List.mem_map.mp hmem
    have hin := h t ht
    rwa [heq] at hin

/-- **Selected rows stand in the given order.** -/
theorem ReadsAs.selectRows (hd : m.ReadsAs d) (h : m.WellFormed) (rows : List ℕ) :
    (m.selectRows rows).ReadsAs (d.selectRows rows) := by
  refine (h.canonical_selectRows rows).readsAs rfl hd.cols_eq fun k j => ?_
  rw [get_selectRows h]
  simp only [DenseMatrix.selectRows, hd.get_eq]

/-- **The columns of a class are added up.** -/
theorem ReadsAs.mergeColumns (hd : m.ReadsAs d) (h : m.WellFormed) {classes : List ℕ} {cols : ℕ}
    (hm' : m.mergeColumns? classes cols = some m') : m'.ReadsAs (d.mergeColumns classes cols) := by
  have hcanonical := canonical_of_mergeColumns? hm'
  obtain ⟨heq, -⟩ := mergeColumns?_eq_some_iff.mp hm'
  have hcols : m'.cols = cols := by rw [heq]; rfl
  refine hcanonical.readsAs (by rw [heq]; exact hd.rows_eq) hcols fun i c => ?_
  simp only [DenseMatrix.mergeColumns]
  split
  · rw [get_of_mergeColumns? h hm', hd.cols_eq]
    exact Finset.sum_congr rfl fun j _ => hd.get_eq i j
  · rename_i hc
    refine hcanonical.get_of_notMem fun hmem => hc ?_
    obtain ⟨e, he, he'⟩ := List.mem_map.mp hmem
    have hin := (hcanonical.inside e he).2
    rwa [he', hcols] at hin

end Exact

/-! ### Sequences of operations -/

/-- A change of a matrix. -/
inductive Edit where
  /-- The given rows in that order. -/
  | selectRows (rows : List ℕ)
  /-- Columns added up by their classes, into a matrix with so many columns. -/
  | mergeColumns (classes : List ℕ) (cols : ℕ)

/-- The matrix after a change, if it can be made. -/
def Edit.result? {K : Type} [Scalar K] (m : SparseMatrix K) : Edit → Option (SparseMatrix K)
  | selectRows rows => some (m.selectRows rows)
  | mergeColumns classes cols => m.mergeColumns? classes cols

/-- The matrix of some triplets after some changes. -/
def edited? {K : Type} [Scalar K] (rows cols : ℕ) (ts : List (Position × K)) (edits : List Edit) :
    Option (SparseMatrix K) := do
  edits.foldlM Edit.result? (← ofTriplets? rows cols ts)

/-- The dense matrix after a change. -/
def Edit.applyDense (d : DenseMatrix ℚ) : Edit → DenseMatrix ℚ
  | selectRows rows => d.selectRows rows
  | mergeColumns classes cols => d.mergeColumns classes cols

/-- **Every column has a class** that is a column of the result, in each change of a matrix with so many
columns. -/
def FitColumns : ℕ → List Edit → Prop
  | _, [] => True
  | cols, .selectRows _ :: edits => FitColumns cols edits
  | cols, .mergeColumns classes cols' :: edits =>
    (∀ j < cols, ∃ c < cols', classes[j]? = some c) ∧ FitColumns cols' edits

instance decidableFitColumns : (cols : ℕ) → (edits : List Edit) → Decidable (FitColumns cols edits)
  | _, [] => inferInstanceAs (Decidable True)
  | cols, .selectRows _ :: edits => decidableFitColumns cols edits
  | _, .mergeColumns _ cols' :: edits =>
    have := decidableFitColumns cols' edits
    inferInstanceAs (Decidable (_ ∧ _))

/-- A change leaves a canonical matrix. -/
theorem Canonical.result? {K : Type} [Scalar K] {m m' : SparseMatrix K} (h : m.Canonical) {e : Edit}
    (he : e.result? m = some m') : m'.Canonical := by
  cases e with
  | selectRows rows =>
    obtain rfl := Option.some.inj he
    exact h.canonical_selectRows rows
  | mergeColumns classes cols => exact canonical_of_mergeColumns? he

/-- **Changes leave a canonical matrix.** -/
theorem Canonical.foldlM_result? {K : Type} [Scalar K] {edits : List Edit} {m m' : SparseMatrix K}
    (h : m.Canonical) (hm' : edits.foldlM Edit.result? m = some m') : m'.Canonical := by
  induction edits generalizing m with
  | nil =>
    obtain rfl := Option.some.inj hm'
    exact h
  | cons e edits ih =>
    rw [List.foldlM_cons, Option.bind_eq_bind, Option.bind_eq_some_iff] at hm'
    obtain ⟨m₁, he, hm'⟩ := hm'
    exact ih (h.result? he) hm'

/-- **Changes that fit the columns can be made.** -/
theorem Canonical.exists_foldlM_result? {K : Type} [Scalar K] {edits : List Edit} {m : SparseMatrix K}
    (h : m.Canonical) (hfit : FitColumns m.cols edits) :
    ∃ m', edits.foldlM Edit.result? m = some m' := by
  induction edits generalizing m with
  | nil => exact ⟨m, rfl⟩
  | cons e edits ih =>
    cases e with
    | selectRows rows => exact ih (h.canonical_selectRows rows) hfit
    | mergeColumns classes cols =>
      have hmerge : m.mergeColumns? classes cols = some (m.mergeColumns (classes.getD · 0) cols) :=
        mergeColumns?_eq_some_iff.mpr ⟨rfl, fun e he => ⟨(h.inside e he).1, hfit.1 _ (h.inside e he).2⟩⟩
      obtain ⟨m', hm'⟩ := ih (canonical_of_mergeColumns? hmerge) hfit.2
      rw [List.foldlM_cons]
      exact ⟨m', Option.bind_eq_some_iff.mpr ⟨_, hmerge, hm'⟩⟩

/-- **Changes are made of the dense matrix** that is read. -/
theorem ReadsAs.foldlM_result? {edits : List Edit} {m m' : SparseMatrix ℚ} {d : DenseMatrix ℚ}
    (hd : m.ReadsAs d) (h : m.Canonical) (hm' : edits.foldlM Edit.result? m = some m') :
    m'.ReadsAs (edits.foldl Edit.applyDense d) := by
  induction edits generalizing m d with
  | nil =>
    obtain rfl := Option.some.inj hm'
    exact hd
  | cons e edits ih =>
    rw [List.foldlM_cons, Option.bind_eq_bind, Option.bind_eq_some_iff] at hm'
    obtain ⟨m₁, he, hm'⟩ := hm'
    refine ih ?_ (h.result? he) hm'
    cases e with
    | selectRows rows =>
      obtain rfl := Option.some.inj he
      exact hd.selectRows h.toWellFormed rows
    | mergeColumns classes cols => exact hd.mergeColumns h.toWellFormed he

/-- **A product with merged columns** is the product with the vector read through the classes. -/
theorem Canonical.exists_mulVec?_mergeColumns {m : SparseMatrix ℚ} (h : m.Canonical) {classes : List ℕ}
    {cols : ℕ} (hlength : classes.length = m.cols) (hclasses : ∀ c ∈ classes, c < cols) :
    ∃ merged, m.mergeColumns? classes cols = some merged
      ∧ ∀ y, y.length = cols → merged.mulVec? y = m.mulVec? (classes.map (y.getD · 0)) := by
  have hclass : ∀ e ∈ m.entries, e.1.2 < classes.length := fun e he => hlength ▸ (h.inside e he).2
  refine ⟨_, mergeColumns?_eq_some_iff.mpr ⟨rfl, fun e he => ⟨(h.inside e he).1,
    _, hclasses _ (List.getElem_mem (hclass e he)), List.getElem?_eq_getElem _⟩⟩, fun y hy => ?_⟩
  have hproduct : (m.mergeColumns (classes.getD · 0) cols).mulVec y
      = m.mulVec (classes.map (y.getD · 0)) := by
    rw [mulVec_eq_map_rowDot, mulVec_eq_map_rowDot]
    refine List.map_congr_left fun i _ => rowDot_mergeColumns m _ cols i _ y fun e he => ?_
    have hlt := hclass e he
    rw [List.getD_eq_getElem _ _ (by rwa [List.length_map]), List.getElem_map,
      List.getD_eq_getElem _ _ hlt]
  have hsize : (classes.map (y.getD · 0)).length = m.cols := by rw [List.length_map, hlength]
  rw [mulVec?, mulVec?, hproduct]
  exact if_congr (and_congr_left fun _ => iff_of_true hy hsize) rfl rfl

/-- **Sparse matrices behave like dense ones.** A matrix of triplets inside its size can be changed by
selecting rows and merging columns wherever the classes cover the columns. After any changes its entries are
sorted, inside and not zero, and its cells, rows, list of rows and products are those of one dense matrix. In
exact arithmetic that is the matrix of the sums by cell, changed in the same way; its products count every
cell, and a product with merged columns reads the vector through the classes. -/
theorem edited_readsAs_dense :
    (∀ {K : Type} [Scalar K] [Scalar.LawfulZero K] {rows cols : ℕ} {ts : List (Position × K)}
      {edits : List Edit},
      ((∀ t ∈ ts, t.1.1 < rows ∧ t.1.2 < cols) → FitColumns cols edits →
        ∃ m, edited? rows cols ts edits = some m)
      ∧ ∀ m, edited? rows cols ts edits = some m → m.Canonical ∧ ∃ d : DenseMatrix K, m.ReadsAs d)
    ∧ ∀ {rows cols : ℕ} {ts : List (Position × ℚ)} {edits : List Edit} {m : SparseMatrix ℚ},
      edited? rows cols ts edits = some m →
      let d := edits.foldl Edit.applyDense (.ofTriplets rows cols ts)
      m.ReadsAs d ∧ (∀ x, d.mulVec x = d.product x)
      ∧ ∀ classes cols', classes.length = m.cols → (∀ c ∈ classes, c < cols') →
        ∃ merged, m.mergeColumns? classes cols' = some merged
          ∧ ∀ y, y.length = cols' → merged.mulVec? y = m.mulVec? (classes.map (y.getD · 0)) := by
  -- the size is checked once, before the first change
  have hstart : ∀ {K : Type} [Scalar K] {rows cols : ℕ} {ts : List (Position × K)} {edits m},
      edited? rows cols ts edits = some m ↔ (∀ t ∈ ts, t.1.1 < rows ∧ t.1.2 < cols)
        ∧ edits.foldlM Edit.result? (ofTriplets rows cols ts) = some m := by
    intro K _ rows cols ts edits m
    rw [edited?, ofTriplets?]
    split
    · rename_i hinside
      exact (and_iff_right (by simpa [inRange] using hinside)).symm
    · rename_i hinside
      exact iff_of_false nofun fun h => hinside (by simpa [inRange] using h.1)
  refine ⟨fun {K} _ _ rows cols ts edits => ⟨fun hts hfit => ?_, fun m hm => ?_⟩,
    fun {rows cols ts edits m} hm => ?_⟩
  · obtain ⟨m, hm⟩ := (canonical_ofTriplets hts).exists_foldlM_result? hfit
    exact ⟨m, hstart.mpr ⟨hts, hm⟩⟩
  · obtain ⟨hts, hm⟩ := hstart.mp hm
    have hcanonical := (canonical_ofTriplets hts).foldlM_result? hm
    exact ⟨hcanonical, hcanonical.exists_readsAs⟩
  · obtain ⟨hts, hm⟩ := hstart.mp hm
    have hcanonical := (canonical_ofTriplets hts).foldlM_result? hm
    exact ⟨(readsAs_ofTriplets hts).foldlM_result? (canonical_ofTriplets hts) hm,
      DenseMatrix.mulVec_eq_product _,
      fun classes cols' hlength hclasses => hcanonical.exists_mulVec?_mergeColumns hlength hclasses⟩

/-- Triplets of which two cancel, a row selected twice beside one past the end, and two columns merged. -/
theorem edited_readsAs_dense_cancelled :
    let ts : List (Position × ℚ) := [((1, 2), 1), ((0, 1), 2), ((1, 2), 2), ((0, 0), 1), ((0, 0), -1)]
    let edits : List Edit := [.selectRows [1, 5, 0, 1], .mergeColumns [0, 1, 1] 2]
    (∀ t ∈ ts, t.1.1 < 2 ∧ t.1.2 < 3) ∧ FitColumns 3 edits ∧ ∃ m, edited? 2 3 ts edits = some m
      ∧ m.entries = [((0, 1), 3), ((2, 1), 2), ((3, 1), 3)] ∧ m.Canonical
      ∧ m.ReadsAs (edits.foldl Edit.applyDense (.ofTriplets 2 3 ts))
      ∧ ∃ merged, m.mergeColumns? [0, 0] 1 = some merged
        ∧ ∀ y, y.length = 1 → merged.mulVec? y = m.mulVec? ([0, 0].map (y.getD · 0)) := by
  intro ts edits
  have hts : ∀ t ∈ ts, t.1.1 < 2 ∧ t.1.2 < 3 := by decide
  have hfit : FitColumns 3 edits := by decide
  have hentries : (edited? 2 3 ts edits).map (fun m => (m.cols, m.entries))
      = some (2, [((0, 1), 3), ((2, 1), 2), ((3, 1), 3)]) := by decide +kernel
  obtain ⟨m, hm⟩ := edited_readsAs_dense.1.1 hts hfit
  rw [hm, Option.map_some, Option.some.injEq, Prod.mk.injEq] at hentries
  obtain ⟨hreads, -, hmerge⟩ := edited_readsAs_dense.2 hm
  exact ⟨hts, hfit, m, hm, hentries.2, (edited_readsAs_dense.1.2 m hm).1, hreads,
    hmerge [0, 0] 1 hentries.1.symm (by decide)⟩

end SparseMatrix

end RelationalLP
