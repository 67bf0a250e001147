import Mathlib
import RelationalLP.Linear.SparseMatrix
import RelationalLP.Proofs.Collections.BinarySearch
import RelationalLP.Proofs.Linear.Tally

/-! # Sparse matrices as linear maps

A well-formed matrix is sorted by position and lies within its size, so its searches find every entry: the
cell at a position is the number that is stored there, and a row has all entries of the row. Its products
are sums over the dense cells, and each operation on matrices is read through products: selecting rows selects cells
of the product, and merging columns reads the vector through the map of the columns. -/

namespace RelationalLP

namespace SparseMatrix

/-- **What a matrix promises**: entries sorted by position, each within the size. -/
structure WellFormed {K : Type} (m : SparseMatrix K) : Prop where
  /-- Positions strictly increase. -/
  sorted : SortedByPosition m.entries
  /-- Every entry has a row and a column. -/
  inside : ∀ e ∈ m.entries, e.1.1 < m.rows ∧ e.1.2 < m.cols

/-! ### Searches -/

section Searches

variable {K : Type} [Scalar K] {m : SparseMatrix K}

omit [Scalar K] in
/-- Sorted entries are sorted for the search of any position. -/
theorem sortedFor_order {es : List (Position × K)} (h : SortedByPosition es) (p : Position) :
    BinarySearch.SortedFor (fun e => e.1.order p) es := by
  refine h.imp fun {e d} hbefore => ?_
  simp only [Position.order_eq_lt_iff, Position.order_eq_gt_iff]
  exact ⟨Position.before_trans hbefore, fun h => Position.before_trans h hbefore⟩

/-- **A search of sorted entries** finds the number that is stored at a position. -/
theorem get_eq_lookup (h : SortedByPosition m.entries) (i j : ℕ) :
    m.get i j = (m.entries.lookup (i, j)).getD 0 := by
  rw [get]
  split
  · -- a position occurs once, so what is found is the first entry there
    rename_i place hfound
    obtain ⟨e, he, heq⟩ := BinarySearch.exists_of_search_eq_ok hfound
    rw [Position.order_eq_eq_iff] at heq
    obtain ⟨before, after, hsplit⟩ := List.append_of_mem (List.mem_of_getElem? he)
    have hnodup := h.nodup
    rw [hsplit, List.map_append, List.map_cons, List.nodup_middle, List.nodup_cons, heq] at hnodup
    have hlookup : m.entries.lookup (i, j) = some e.2 := by
      refine List.lookup_eq_some_iff.mpr ⟨before, after, heq ▸ hsplit, fun d hd => bne_iff_ne.mpr ?_⟩
      exact fun hd' => hnodup.1 (List.mem_append_left _ (List.mem_map.mpr ⟨d, hd, hd'.symm⟩))
    rw [he, hlookup]
    rfl
  · -- an entry at the position would be found
    rename_i place hnone
    have hlookup : m.entries.lookup (i, j) = none := by
      refine List.lookup_eq_none_iff.mpr fun e he => bne_iff_ne.mpr fun heq => ?_
      have hself : Position.order e.1 (i, j) = .eq := Position.order_eq_eq_iff.mpr heq.symm
      obtain ⟨place', hfound⟩ := BinarySearch.exists_search_eq_ok (sortedFor_order h (i, j)) he hself
      cases hnone.symm.trans hfound
    rw [hlookup]
    rfl

omit [Scalar K] in
/-- In entries in the order of their rows, those of a row stand together. -/
theorem takeWhile_dropWhile_row {es : List (Position × K)} (h : es.Pairwise fun e d => e.1.1 ≤ d.1.1)
    (i : ℕ) : (es.dropWhile fun e => e.1.1 < i).takeWhile (·.1.1 == i) = es.filter (·.1.1 = i) := by
  induction es with
  | nil => rfl
  | cons e es ih =>
    obtain ⟨he, hes⟩ := List.pairwise_cons.mp h
    rcases lt_trichotomy e.1.1 i with hlt | rfl | hgt
    · rw [List.dropWhile_cons_of_pos (by simpa using hlt), ih hes,
        List.filter_cons_of_neg (by simpa using hlt.ne)]
    · -- no entry behind the first one of the row is before the row
      have hstart : (es.dropWhile fun d => d.1.1 < e.1.1) = es :=
        List.dropWhile_eq_self_iff.mpr fun hlength => by simpa using he _ (List.getElem_mem hlength)
      rw [List.dropWhile_cons_of_neg (by simp), List.takeWhile_cons_of_pos (by simp),
        List.filter_cons_of_pos (by simp), ← ih hes, hstart]
    · -- the rows behind are greater, too
      have hnone : ∀ d ∈ e :: es, ¬ d.1.1 = i :=
        List.forall_mem_cons.mpr ⟨hgt.ne', fun d hd => (hgt.trans_le (he d hd)).ne'⟩
      rw [List.dropWhile_cons_of_neg (by simpa using hgt.le),
        List.takeWhile_cons_of_neg (by simpa using hgt.ne'),
        List.filter_eq_nil_iff.mpr (by simpa using hnone)]

omit [Scalar K] in
/-- **A row of sorted entries** has all entries of the row. -/
theorem row_eq_map_filter (h : SortedByPosition m.entries) (i : ℕ) :
    m.row i = (m.entries.filter (·.1.1 = i)).map fun e => (e.1.2, e.2) := by
  have hrows : m.entries.Pairwise fun e d => e.1.1 ≤ d.1.1 := by
    refine h.imp fun {e d} hbefore => ?_
    rw [Position.before_iff] at hbefore
    omega
  rw [← takeWhile_dropWhile_row hrows, row, BinarySearch.drop_partitionPoint]
  refine hrows.imp fun {e d} hle hlt => ?_
  simp only [decide_eq_true_eq] at hlt ⊢
  exact hle.trans_lt hlt

omit [Scalar K] in
theorem mem_row (h : SortedByPosition m.entries) {i j : ℕ} {v : K} :
    (j, v) ∈ m.row i ↔ ((i, j), v) ∈ m.entries := by
  rw [row_eq_map_filter h]
  simp only [List.mem_map, List.mem_filter, decide_eq_true_eq]
  constructor
  · rintro ⟨⟨⟨r, c⟩, w⟩, ⟨he, rfl⟩, ⟨⟩⟩
    exact he
  · exact fun he => ⟨_, ⟨he, rfl⟩, rfl⟩

omit [Scalar K] in
/-- The columns of a row increase. -/
theorem pairwise_row (h : SortedByPosition m.entries) (i : ℕ) :
    (m.row i).Pairwise fun e f => e.1 < f.1 := by
  rw [row_eq_map_filter h, List.pairwise_map, List.pairwise_filter]
  refine h.imp fun {e f} hbefore he hf => ?_
  rw [Position.before_iff] at hbefore
  rw [decide_eq_true_eq] at he hf
  omega

omit [Scalar K] in
/-- A row has at most one entry for each column. -/
theorem length_row_le (h : m.WellFormed) (i : ℕ) : (m.row i).length ≤ m.cols := by
  have hnodup : ((m.row i).map Prod.fst).Nodup :=
    List.pairwise_map.mpr ((pairwise_row h.sorted i).imp ne_of_lt)
  have hsubset : (m.row i).map Prod.fst ⊆ List.range m.cols := by
    intro j hj
    obtain ⟨⟨c, v⟩, he, rfl⟩ := List.mem_map.mp hj
    exact List.mem_range.mpr (h.inside _ ((mem_row h.sorted).mp he)).2
  simpa using (List.subperm_of_subset hnodup hsubset).length_le

end Searches

/-! ### Entries -/

/-- A stored position of a matrix of triplets is the position of a triplet. -/
theorem mem_fst_of_mem_ofTriplets {K : Type} [Scalar K] {rows cols : ℕ} {ts : List (Position × K)}
    {e : Position × K} (he : e ∈ (ofTriplets rows cols ts).entries) : e.1 ∈ ts.map Prod.fst :=
  Tally.mem_fst_ofList.mp (List.mem_map_of_mem (List.mem_filter.mp he).1)

/-- Triplets that repeat no position are stored as they are, without zeros. -/
theorem mem_ofTriplets_of_nodup {K : Type} [Scalar K] [Scalar.StartsFromZero K] {rows cols : ℕ}
    {ts : List (Position × K)} (h : (ts.map Prod.fst).Nodup) {e : Position × K} :
    e ∈ (ofTriplets rows cols ts).entries ↔ e ∈ ts ∧ Scalar.isZero e.2 = false := by
  rw [ofTriplets, List.mem_filter, Tally.mem_ofList_of_nodup h, Bool.not_eq_true']
  constructor
  · rintro ⟨⟨v, hv, heq⟩, hzero⟩
    have hv' : Scalar.isZero v = false := by
      by_contra hne
      rw [heq, Scalar.StartsFromZero.isZero_zero_add (eq_true_of_ne_false hne)] at hzero
      cases hzero
    rw [Scalar.StartsFromZero.zero_add_of_ne hv'] at heq
    exact ⟨by rwa [← heq] at hv, hzero⟩
  · rintro ⟨he, hzero⟩
    exact ⟨⟨e.2, he, (Scalar.StartsFromZero.zero_add_of_ne hzero).symm⟩, hzero⟩

theorem perm_ofTriplets_of_nodup {K : Type} [Scalar K] [Scalar.StartsFromZero K] (rows cols : ℕ)
    {ts : List (Position × K)} (h : (ts.map Prod.fst).Nodup) :
    (ofTriplets rows cols ts).entries.Perm (ts.filter fun e => !Scalar.isZero e.2) := by
  have hsorted : SortedByPosition (ofTriplets rows cols ts).entries := (Tally.sorted_ofList ts).filter _
  refine (List.perm_ext_iff_of_nodup hsorted.nodup.of_map (h.of_map.filter _)).mpr fun e => ?_
  rw [mem_ofTriplets_of_nodup h, List.mem_filter, Bool.not_eq_true']

/-- A matrix of triplets weighs as much as the triplets. -/
theorem weigh_ofTriplets (f : Position → ℚ) (rows cols : ℕ) (ts : List (Position × ℚ)) :
    weigh f (ofTriplets rows cols ts).entries = weigh f ts := by
  rw [ofTriplets, weigh_filter_nonzero, Tally.weigh_ofList]

/-- Triplets within the size make a well-formed matrix. -/
theorem wellFormed_ofTriplets {K : Type} [Scalar K] {rows cols : ℕ} {ts : List (Position × K)}
    (h : ∀ t ∈ ts, t.1.1 < rows ∧ t.1.2 < cols) : (ofTriplets rows cols ts).WellFormed where
  sorted := (Tally.sorted_ofList ts).filter _
  inside := by
    intro e he
    obtain ⟨t, ht, heq⟩ := List.mem_map.mp (mem_fst_of_mem_ofTriplets he)
    rw [← heq]
    exact h t ht

/-- The cell at a position is the weight of its indicator. -/
theorem get_eq_weigh {m : SparseMatrix ℚ} (h : m.WellFormed) (i j : ℕ) :
    m.get i j = weigh (indicator (i, j)) m.entries :=
  (get_eq_lookup h.sorted i j).trans (lookup_eq_weigh h.sorted.nodup (i, j))

/-- The cell of a matrix of triplets is the sum of the triplets at its position. -/
theorem get_ofTriplets (rows cols : ℕ) (ts : List (Position × ℚ)) (i j : ℕ) :
    (ofTriplets rows cols ts).get i j = weigh (indicator (i, j)) ts := by
  have hs : SortedByPosition (ofTriplets rows cols ts).entries :=
    (Tally.sorted_ofList ts).filter _
  rw [get_eq_lookup hs, lookup_eq_weigh hs.nodup, weigh_ofTriplets]

/-! ### Products -/

/-- The product of a row with a vector: the products of its stored entries, summed from the left. -/
def rowDot {K : Type} [Scalar K] (m : SparseMatrix K) (i : ℕ) (x : List K) : K :=
  m.entries.foldl (fun total (p, v) => if p.1 = i then total + v * x.getD p.2 0 else total) 0

/-- A loop that changes one item at a time changes each item by the steps at its place. -/
theorem getElem?_foldl_modify {α β : Type} (place : β → ℕ) (change : β → α → α) (steps : List β)
    (items : List α) (i : ℕ) :
    (steps.foldl (fun items b => items.modify (place b) (change b)) items)[i]?
      = items[i]?.map fun a => steps.foldl (fun a b => if place b = i then change b a else a) a := by
  induction steps generalizing items with
  | nil => simp
  | cons b steps ih =>
    rw [List.foldl_cons, ih, List.getElem?_modify]
    by_cases hb : place b = i
    · simp [hb, Function.comp_def]
    · simp [hb]

/-- **A product has the product of each row.** -/
theorem mulVec_eq_map_rowDot {K : Type} [Scalar K] (m : SparseMatrix K) (x : List K) :
    m.mulVec x = (List.range m.rows).map (m.rowDot · x) := by
  refine List.ext_getElem? fun i => ?_
  have htotal := getElem?_foldl_modify (fun e : Position × K => e.1.1)
    (fun e total => total + e.2 * x.getD e.1.2 0) m.entries (List.replicate m.rows 0) i
  refine htotal.trans ?_
  rw [List.getElem?_map, List.getElem?_replicate]
  by_cases hi : i < m.rows
  · rw [if_pos hi, List.getElem?_range hi]
    rfl
  · rw [if_neg hi, List.getElem?_eq_none (by simpa using hi)]
    rfl

/-- The product of a row reads the row. -/
theorem rowDot_eq_foldl_row {K : Type} [Scalar K] {m : SparseMatrix K} (h : SortedByPosition m.entries)
    (i : ℕ) (x : List K) :
    m.rowDot i x = (m.row i).foldl (fun total (j, v) => total + v * x.getD j 0) 0 := by
  rw [row_eq_map_filter h, List.foldl_map, List.foldl_filter]
  simp only [decide_eq_true_eq]
  rfl

/-- The weights that make a row of a product. -/
def rowWeight (i : ℕ) (x : List ℚ) (p : Position) : ℚ := if p.1 = i then x.getD p.2 0 else 0

/-- The loop over the entries of a row adds their weight. -/
theorem foldl_rowEntries (es : List (Position × ℚ)) (i : ℕ) (x : List ℚ) (total : ℚ) :
    es.foldl (fun total (p, v) => if p.1 = i then total + v * x.getD p.2 0 else total) total
      = total + weigh (rowWeight i x) es := by
  induction es generalizing total with
  | nil => simp
  | cons e es ih =>
    rw [List.foldl_cons, ih, weigh_cons, rowWeight]
    by_cases he : e.1.1 = i
    · simp only [if_pos he]
      ring
    · simp only [if_neg he]
      ring

/-- A cell of a product is the weight of the entries for the vector placed in that row. -/
theorem rowDot_eq_weigh (m : SparseMatrix ℚ) (i : ℕ) (x : List ℚ) :
    m.rowDot i x = weigh (rowWeight i x) m.entries :=
  (foldl_rowEntries m.entries i x 0).trans (zero_add _)

/-- Weights may be summed outside. -/
theorem weigh_sum {α : Type} (s : Finset α) (f : α → Position → ℚ)
    (es : List (Position × ℚ)) :
    weigh (fun p => ∑ a ∈ s, f a p) es = ∑ a ∈ s, weigh (f a) es := by
  induction es with
  | nil => simp
  | cons e es ih =>
    simp only [weigh_cons, ih, Finset.sum_mul, Finset.sum_add_distrib]

/-- A constant factor of the weights may be taken outside. -/
theorem weigh_mul_left (c : ℚ) (f : Position → ℚ) (es : List (Position × ℚ)) :
    weigh (fun p => c * f p) es = c * weigh f es := by
  induction es with
  | nil => simp
  | cons e es ih =>
    simp only [weigh_cons, ih]
    ring

/-- **Products are dense sums**: a cell of a product sums the cells of its row times the vector. -/
theorem rowDot_eq_sum {m : SparseMatrix ℚ} (h : m.WellFormed) (i : ℕ) (x : List ℚ) :
    m.rowDot i x = ∑ j ∈ Finset.range m.cols, m.get i j * x.getD j 0 := by
  have hw : weigh (rowWeight i x) m.entries
      = weigh (fun p => ∑ j ∈ Finset.range m.cols, x.getD j 0 * indicator (i, j) p) m.entries := by
    refine weigh_congr fun e he => ?_
    have hcol := Finset.mem_range.mpr (h.inside e he).2
    rw [rowWeight]
    by_cases hrow : e.1.1 = i
    · rw [if_pos hrow, Finset.sum_eq_single_of_mem _ hcol]
      · rw [indicator, if_pos (by rw [← hrow]), mul_one]
      · intro j _ hj
        rw [indicator, if_neg (fun hp => hj (by rw [hp])), mul_zero]
    · rw [if_neg hrow]
      refine (Finset.sum_eq_zero fun j _ => ?_).symm
      rw [indicator, if_neg (fun hp => hrow (by rw [hp])), mul_zero]
  rw [rowDot_eq_weigh, hw, weigh_sum]
  refine Finset.sum_congr rfl fun j _ => ?_
  rw [weigh_mul_left, ← get_eq_weigh h, mul_comm]

/-- The cells of a product. -/
@[simp] theorem length_mulVec (m : SparseMatrix ℚ) (x : List ℚ) : (m.mulVec x).length = m.rows := by
  simp [mulVec_eq_map_rowDot]

theorem getD_mulVec (m : SparseMatrix ℚ) (x : List ℚ) {i : ℕ} (h : i < m.rows) :
    (m.mulVec x).getD i 0 = m.rowDot i x := by
  simp [mulVec_eq_map_rowDot, List.getD_eq_getElem?_getD, List.getElem?_range h]

/-! ### Selected rows and merged columns -/

/-- The entries of one row, placed in another row, weigh as the row does. -/
theorem weigh_map_row (f : Position → ℚ) {m : SparseMatrix ℚ} (h : SortedByPosition m.entries)
    (old new : ℕ) : weigh f ((m.row old).map fun (j, v) => ((new, j), v))
      = weigh (fun p => if p.1 = old then f (new, p.2) else 0) m.entries := by
  rw [row_eq_map_filter h, List.map_map]
  induction m.entries with
  | nil => rfl
  | cons e es ih =>
    rw [weigh_cons, ← ih]
    by_cases hp : e.1.1 = old
    · rw [if_pos hp, List.filter_cons_of_pos (by simpa using hp), List.map_cons, weigh_cons]
      rfl
    · rw [if_neg hp, List.filter_cons_of_neg (by simpa using hp), zero_mul, zero_add]

/-- Summing over the places of a list, counted from any start, picks out the item at one place. -/
theorem sum_zipIdx_from_ite {α : Type} (F : α → ℚ) (xs : List α) (start k : ℕ) :
    ((xs.zipIdx start).map fun e => if e.2 = k then F e.1 else 0).sum
      = if start ≤ k then (xs[k - start]?.map F).getD 0 else 0 := by
  induction xs generalizing start with
  | nil => simp
  | cons y ys ih =>
    rw [List.zipIdx_cons, List.map_cons, List.sum_cons, ih]
    rcases lt_trichotomy start k with hlt | rfl | hgt
    · have hsub : k - start = k - (start + 1) + 1 := by omega
      rw [if_neg hlt.ne, if_pos (by omega), if_pos hlt.le, hsub, List.getElem?_cons_succ, zero_add]
    · simp
    · rw [if_neg hgt.ne', if_neg (by omega), if_neg (by omega), zero_add]

theorem sum_zipIdx_ite {α : Type} (F : α → ℚ) (xs : List α) (k : ℕ) :
    (xs.zipIdx.map fun e => if e.2 = k then F e.1 else 0).sum = (xs[k]?.map F).getD 0 := by
  rw [sum_zipIdx_from_ite, if_pos (Nat.zero_le k), Nat.sub_zero]

/-- **The weight of one row of selected rows** is the weight of the row that was selected for it. -/
theorem weigh_selectRows (g : ℕ → ℚ) {m : SparseMatrix ℚ} (h : SortedByPosition m.entries)
    (rows : List ℕ) (k : ℕ) :
    weigh (fun p => if p.1 = k then g p.2 else 0) (m.selectRows rows).entries
      = (rows[k]?.map fun i => weigh (fun p => if p.1 = i then g p.2 else 0) m.entries).getD 0 := by
  have hrow : ∀ old new, weigh (fun p => if p.1 = k then g p.2 else 0)
        ((m.row old).map fun (j, v) => ((new, j), v))
      = if new = k then weigh (fun p => if p.1 = old then g p.2 else 0) m.entries else 0 := by
    intro old new
    rw [weigh_map_row _ h]
    split
    · rfl
    · have hz : weigh (fun p => if p.1 = old then (0 : ℚ) else 0) m.entries
          = weigh (fun _ => 0 * (0 : ℚ)) m.entries := weigh_congr fun e _ => by split <;> simp
      exact hz.trans ((weigh_mul_left 0 (fun _ => (0 : ℚ)) _).trans (zero_mul _))
  rw [selectRows, weigh_ofTriplets, weigh_flatMap]
  have hmap : (rows.zipIdx.map fun e => weigh (fun p => if p.1 = k then g p.2 else 0)
        ((m.row e.1).map fun (j, v) => ((e.2, j), v)))
      = rows.zipIdx.map fun e =>
          if e.2 = k then weigh (fun p => if p.1 = e.1 then g p.2 else 0) m.entries else 0 :=
    List.map_congr_left fun e _ => hrow e.1 e.2
  rw [hmap, sum_zipIdx_ite fun i => weigh (fun p => if p.1 = i then g p.2 else 0) m.entries]

/-- Rows selected from a matrix give the selected cells of its products. -/
theorem rowDot_selectRows {m : SparseMatrix ℚ} (h : SortedByPosition m.entries) (rows : List ℕ)
    (x : List ℚ) {k : ℕ} (hk : k < rows.length) :
    (m.selectRows rows).rowDot k x = m.rowDot rows[k] x := by
  rw [rowDot_eq_weigh, rowDot_eq_weigh]
  refine (weigh_selectRows (x.getD · 0) h rows k).trans ?_
  rw [List.getElem?_eq_getElem hk]
  rfl

/-- Selecting rows reads only the columns of the matrix. -/
theorem inside_selectRows {K : Type} [Scalar K] {m : SparseMatrix K} (h : m.WellFormed)
    (rows : List ℕ) :
    ∀ e ∈ (m.selectRows rows).entries, e.1.1 < rows.length ∧ e.1.2 < m.cols := by
  intro e he
  obtain ⟨t, ht, heq⟩ := List.mem_map.mp (mem_fst_of_mem_ofTriplets he)
  obtain ⟨⟨old, new⟩, hmem, ht⟩ := List.mem_flatMap.mp ht
  obtain ⟨⟨j, v⟩, hrow, rfl⟩ := List.mem_map.mp ht
  rw [← heq]
  exact ⟨by simpa using (List.mem_zipIdx hmem).2.1, (h.inside _ ((mem_row h.sorted).mp hrow)).2⟩

/-- A product with merged columns is the product with the vector read through their map. -/
theorem rowDot_mergeColumns (m : SparseMatrix ℚ) (classOf : ℕ → ℕ) (cols i : ℕ) (x y : List ℚ)
    (h : ∀ e ∈ m.entries, x.getD e.1.2 0 = y.getD (classOf e.1.2) 0) :
    (m.mergeColumns classOf cols).rowDot i y = m.rowDot i x := by
  rw [rowDot_eq_weigh, rowDot_eq_weigh, mergeColumns, weigh_ofTriplets,
    weigh_map (rowWeight i y) (fun p => (p.1, classOf p.2))]
  refine weigh_congr fun e he => ?_
  simp only [rowWeight, Function.comp_apply, h e he]

end SparseMatrix

end RelationalLP
