import Mathlib
import RelationalLP.Proofs.Symmetry.Refinement

/-! # The coarsest equitable partition

A partition of the rows and columns of a coloured incidence is equitable when rows of one class have one
colour and, for each colour of edges and each class of columns, the same number of edges of that colour
into that class, and likewise for columns. Colour refinement ends in time with an equitable partition,
and every equitable partition refines it. -/

namespace RelationalLP

namespace Partition

/-- The number of edges of a colour from a row into a class of columns. -/
def rowDegree (p : Partition) (i : ColoredIncidence) (row color cls : ℕ) : ℕ :=
  i.edges.countP fun e => e.row = row ∧ e.color = color ∧ p.colClasses[e.col]? = some cls

/-- The number of edges of a colour from a column into a class of rows. -/
def colDegree (p : Partition) (i : ColoredIncidence) (col color cls : ℕ) : ℕ :=
  i.edges.countP fun e => e.col = col ∧ e.color = color ∧ p.rowClasses[e.row]? = some cls

/-- **An equitable partition** of a coloured incidence. -/
structure Equitable (p : Partition) (i : ColoredIncidence) : Prop where
  /-- Every row has a class. -/
  rows : p.rowClasses.length = i.rowCount
  /-- Every column has a class. -/
  cols : p.colClasses.length = i.colCount
  /-- Rows of one class have one colour. -/
  rowColors : ∀ r < i.rowCount, ∀ s < i.rowCount, p.rowClasses[r]? = p.rowClasses[s]? →
    i.rowColors[r]? = i.rowColors[s]?
  /-- Columns of one class have one colour. -/
  colColors : ∀ c < i.colCount, ∀ d < i.colCount, p.colClasses[c]? = p.colClasses[d]? →
    i.colColors[c]? = i.colColors[d]?
  /-- Rows of one class have equally many edges of each colour into each class. -/
  rowDegrees : ∀ r < i.rowCount, ∀ s < i.rowCount, p.rowClasses[r]? = p.rowClasses[s]? →
    ∀ color cls, p.rowDegree i r color cls = p.rowDegree i s color cls
  /-- Columns of one class have equally many edges of each colour into each class. -/
  colDegrees : ∀ c < i.colCount, ∀ d < i.colCount, p.colClasses[c]? = p.colClasses[d]? →
    ∀ color cls, p.colDegree i c color cls = p.colDegree i d color cls

/-- A partition refines another one: what it keeps together, the other one keeps together. -/
structure Refines (q p : Partition) : Prop where
  /-- Rows of one class of the finer partition are in one class of the coarser one. -/
  rows : ∀ r s : ℕ, q.rowClasses[r]? = q.rowClasses[s]? → p.rowClasses[r]? = p.rowClasses[s]?
  /-- Columns of one class of the finer partition are in one class of the coarser one. -/
  cols : ∀ c d : ℕ, q.colClasses[c]? = q.colClasses[d]? → p.colClasses[c]? = p.colClasses[d]?

/-- The classes of rows and columns as labels of nodes, where the columns follow `rows` rows. -/
def label (p : Partition) (rows node : ℕ) : Option ℕ ⊕ Option ℕ :=
  if node < rows then .inl p.rowClasses[node]? else .inr p.colClasses[node - rows]?

/-- A property of nodes of one label is one of rows of one class and of columns of one class. -/
theorem forall_label_eq {p : Partition} {rows cols : ℕ} {P : ℕ → ℕ → Prop} :
    (∀ u < rows + cols, ∀ v < rows + cols, p.label rows u = p.label rows v → P u v)
      ↔ (∀ r < rows, ∀ s < rows, p.rowClasses[r]? = p.rowClasses[s]? → P r s)
        ∧ ∀ c < cols, ∀ d < cols, p.colClasses[c]? = p.colClasses[d]? →
          P (rows + c) (rows + d) := by
  constructor
  · intro h
    refine ⟨fun r hr s hs heq => h r (by omega) s (by omega) ?_,
      fun c hc d hd heq => h (rows + c) (by omega) (rows + d) (by omega) ?_⟩
    · rw [label, label, if_pos hr, if_pos hs, heq]
    · simp [label, heq]
  · rintro ⟨hrows, hcols⟩ u hu v hv heq
    rw [label, label] at heq
    -- a row and a column never have one label
    by_cases hur : u < rows <;> by_cases hvr : v < rows
    · simp only [hur, hvr, if_true, Sum.inl.injEq] at heq
      exact hrows u hur v hvr heq
    · simp [hur, hvr] at heq
    · simp [hur, hvr] at heq
    · simp only [hur, hvr, if_false, Sum.inr.injEq] at heq
      have hP := hcols (u - rows) (by omega) (v - rows) (by omega) heq
      rwa [Nat.add_sub_cancel' (by omega), Nat.add_sub_cancel' (by omega)] at hP

end Partition

namespace ColorRefinement

variable {i : ColoredIncidence} {p : Partition}

/-! ### What nodes see -/

/-- A row sees the columns of its edges. -/
theorem neighbors_row {r : ℕ} (hr : r < i.rowCount) :
    neighbors i r
      = (i.edges.filter (·.row = r)).map fun e => (e.color, i.rowCount + e.col) := by
  have hcol : ∀ e : ColoredEdge, i.rowCount + e.col ≠ r := fun e => by omega
  rw [neighbors]
  induction i.edges with
  | nil => rfl
  | cons e es ih =>
    rw [List.flatMap_cons, ih, if_neg (hcol e), List.append_nil]
    by_cases he : e.row = r <;> simp [he]

/-- A column sees the rows of its edges. -/
theorem neighbors_col (hinside : ∀ e ∈ i.edges, e.row < i.rowCount) (c : ℕ) :
    neighbors i (i.rowCount + c)
      = (i.edges.filter (·.col = c)).map fun e => (e.color, e.row) := by
  rw [neighbors]
  generalize i.edges = es at hinside
  induction es with
  | nil => rfl
  | cons e es ih =>
    obtain ⟨he, hes⟩ := List.forall_mem_cons.mp hinside
    have hrow : e.row ≠ i.rowCount + c := by omega
    rw [List.flatMap_cons, ih hes, if_neg hrow, List.nil_append]
    by_cases hcol : e.col = c <;> simp [hcol]

/-- Edges show the same colours and classes exactly when there are equally many of each colour into each
class. -/
theorem perm_iff_countP {tag : Option ℕ → Option ℕ ⊕ Option ℕ} (htag : tag.Injective)
    {cls : ColoredEdge → Option ℕ} {xs ys : List ColoredEdge} (hxs : ∀ e ∈ xs, (cls e).isSome)
    (hys : ∀ e ∈ ys, (cls e).isSome) :
    (xs.map fun e => (e.color, tag (cls e))).Perm (ys.map fun e => (e.color, tag (cls e)))
      ↔ ∀ color k, xs.countP (fun e => e.color = color ∧ cls e = some k)
        = ys.countP fun e => e.color = color ∧ cls e = some k := by
  have hmap : ∀ zs : List ColoredEdge, (zs.map fun e => (e.color, tag (cls e)))
      = (zs.map fun e => (e.color, cls e)).map (Prod.map id tag) := by
    simp [Function.comp_def]
  have hcount : ∀ (zs : List ColoredEdge) color o, (zs.map fun e => (e.color, cls e)).count (color, o)
      = zs.countP fun e => e.color = color ∧ cls e = o := by
    intro zs color o
    rw [List.count_eq_countP, List.countP_map]
    exact List.countP_congr fun e _ => by simp
  -- every edge has a class, so none is counted without one
  have hnone : ∀ zs : List ColoredEdge, (∀ e ∈ zs, (cls e).isSome) → ∀ color,
      (zs.countP fun e => e.color = color ∧ cls e = none) = 0 := by
    intro zs hzs color
    rw [List.countP_eq_zero]
    intro e he
    have hsome := hzs e he
    cases hcls : cls e <;> simp_all
  rw [hmap xs, hmap ys, List.map_perm_map_iff (Function.injective_id.prodMap htag),
    List.perm_iff_count]
  simp only [Prod.forall, hcount]
  constructor
  · intro h color k
    exact h color (some k)
  · intro h color o
    cases o with
    | none => rw [hnone xs hxs, hnone ys hys]
    | some k => exact h color k

/-- Rows see the same exactly when their edges into the classes of columns are equally many. -/
theorem seen_row_perm_iff (hcols : ∀ e ∈ i.edges, (p.colClasses[e.col]?).isSome) {r s : ℕ}
    (hr : r < i.rowCount) (hs : s < i.rowCount) :
    (seen (p.label i.rowCount) (neighbors i r)).Perm (seen (p.label i.rowCount) (neighbors i s))
      ↔ ∀ color cls, p.rowDegree i r color cls = p.rowDegree i s color cls := by
  have hseen : ∀ t < i.rowCount, seen (p.label i.rowCount) (neighbors i t)
      = (i.edges.filter (·.row = t)).map fun e => (e.color, .inr p.colClasses[e.col]?) := by
    intro t ht
    rw [neighbors_row ht, seen, List.map_map]
    exact List.map_congr_left fun e _ => by simp [Partition.label]
  have hsome : ∀ t, ∀ e ∈ i.edges.filter (·.row = t), (p.colClasses[e.col]?).isSome :=
    fun t e he => hcols e (List.mem_of_mem_filter he)
  rw [hseen r hr, hseen s hs, perm_iff_countP Sum.inr_injective (hsome r) (hsome s)]
  refine forall₂_congr fun color cls => ?_
  simp only [Partition.rowDegree, List.countP_filter, Bool.decide_and, Bool.and_comm]

/-- Columns see the same exactly when their edges into the classes of rows are equally many. -/
theorem seen_col_perm_iff (hinside : ∀ e ∈ i.edges, e.row < i.rowCount)
    (hrows : ∀ e ∈ i.edges, (p.rowClasses[e.row]?).isSome) {c d : ℕ} :
    (seen (p.label i.rowCount) (neighbors i (i.rowCount + c))).Perm
        (seen (p.label i.rowCount) (neighbors i (i.rowCount + d)))
      ↔ ∀ color cls, p.colDegree i c color cls = p.colDegree i d color cls := by
  have hseen : ∀ t, seen (p.label i.rowCount) (neighbors i (i.rowCount + t))
      = (i.edges.filter (·.col = t)).map fun e => (e.color, .inl p.rowClasses[e.row]?) := by
    intro t
    rw [neighbors_col hinside, seen, List.map_map]
    refine List.map_congr_left fun e he => ?_
    have hlt := hinside e (List.mem_of_mem_filter he)
    simp [Partition.label, hlt]
  have hsome : ∀ t, ∀ e ∈ i.edges.filter (·.col = t), (p.rowClasses[e.row]?).isSome :=
    fun t e he => hrows e (List.mem_of_mem_filter he)
  rw [hseen c, hseen d, perm_iff_countP Sum.inl_injective (hsome c) (hsome d)]
  refine forall₂_congr fun color cls => ?_
  simp only [Partition.colDegree, List.countP_filter, Bool.decide_and, Bool.and_comm]

theorem getD_adjacency {u : ℕ} (hu : u < i.rowCount + i.colCount) :
    (adjacency i).getD u [] = neighbors i u := by
  simp [adjacency, hu]

/-- The colours of the incidence as labels of nodes. -/
def colorLabel (i : ColoredIncidence) : ℕ → Option ℕ ⊕ Option ℕ :=
  Partition.label ⟨i.rowColors, i.colColors⟩ i.rowCount

@[simp] theorem length_adjacency : (adjacency i).length = i.rowCount + i.colCount := by
  simp [adjacency]

@[simp] theorem length_initial : (initial i).length = i.rowCount + i.colCount := by
  simp [initial, ColoredIncidence.rowCount, ColoredIncidence.colCount]

/-- The first colours tell rows from columns, and beyond that what the incidence tells. -/
theorem initial_eq_iff {u v : ℕ} (hu : u < i.rowCount + i.colCount)
    (hv : v < i.rowCount + i.colCount) :
    (initial i).getD u 0 = (initial i).getD v 0 ↔ colorLabel i u = colorLabel i v := by
  rw [getD_eq_iff (by simpa using hu) (by simpa using hv), initial, getElem?_relabel_eq_iff]
  simp only [colorLabel, Partition.label, List.getElem?_append, List.length_map, List.getElem?_map,
    ColoredIncidence.rowCount, ColoredIncidence.colCount] at hu hv ⊢
  by_cases hur : u < i.rowColors.length <;> by_cases hvr : v < i.rowColors.length
  · simp [hur, hvr]
  · simp [hur, hvr]
  · simp [hur, hvr]
  · simp only [hur, hvr, if_false, Sum.inr.injEq]
    exact (Option.map_injective fun _ _ h => (Prod.mk.inj h).2).eq_iff

/-- The partition of colours that tell rows from columns has the classes of these colours. -/
theorem label_ofLabels_eq_iff {colors : List ℕ} (hcolors : colors.length = i.rowCount + i.colCount)
    (hfirst : Finer (i.rowCount + i.colCount) (colors.getD · 0) (colorLabel i)) {u v : ℕ}
    (hu : u < i.rowCount + i.colCount) (hv : v < i.rowCount + i.colCount) :
    (Partition.ofLabels (colors.take i.rowCount) (colors.drop i.rowCount)).label i.rowCount u
        = (Partition.ofLabels (colors.take i.rowCount) (colors.drop i.rowCount)).label i.rowCount v
      ↔ colors.getD u 0 = colors.getD v 0 := by
  rw [getD_eq_iff (hcolors.symm ▸ hu) (hcolors.symm ▸ hv)]
  -- nodes of one colour are on one side
  have hsides : colors[u]? = colors[v]? → (u < i.rowCount ↔ v < i.rowCount) := by
    intro heq
    have hlabel := hfirst u hu v hv ((getD_eq_iff (hcolors.symm ▸ hu) (hcolors.symm ▸ hv)).mpr heq)
    rw [colorLabel, Partition.label, Partition.label] at hlabel
    by_cases hur : u < i.rowCount <;> by_cases hvr : v < i.rowCount
    · exact iff_of_true hur hvr
    · simp [hur, hvr] at hlabel
    · simp [hur, hvr] at hlabel
    · exact iff_of_false hur hvr
  simp only [Partition.label, Partition.ofLabels]
  by_cases hur : u < i.rowCount <;> by_cases hvr : v < i.rowCount
  · rw [if_pos hur, if_pos hvr, Sum.inl.injEq, getElem?_relabel_eq_iff, List.getElem?_take_of_lt hur,
      List.getElem?_take_of_lt hvr]
  · rw [if_pos hur, if_neg hvr]
    exact iff_of_false Sum.inl_ne_inr fun heq => hvr ((hsides heq).mp hur)
  · rw [if_neg hur, if_pos hvr]
    exact iff_of_false Sum.inr_ne_inl fun heq => hur ((hsides heq).mpr hvr)
  · rw [if_neg hur, if_neg hvr, Sum.inr.injEq, getElem?_relabel_eq_iff, List.getElem?_drop,
      List.getElem?_drop, Nat.add_sub_cancel' (by omega), Nat.add_sub_cancel' (by omega)]

/-- Classes of places that are kept together within a list are kept together everywhere. -/
theorem getElem?_eq_of_within {fine coarse : List ℕ} (hlen : fine.length = coarse.length)
    (h : ∀ r < fine.length, ∀ s < fine.length, fine[r]? = fine[s]? → coarse[r]? = coarse[s]?)
    (r s : ℕ) (heq : fine[r]? = fine[s]?) : coarse[r]? = coarse[s]? := by
  by_cases hr : r < fine.length <;> by_cases hs : s < fine.length
  · exact h r hr s hs heq
  · simp [hr, hs] at heq
  · simp [hr, hs] at heq
  · rw [List.getElem?_eq_none (by omega), List.getElem?_eq_none (by omega)]

/-- A partition whose labels are finer refines. -/
theorem refines_of_finer {q : Partition} (hqrows : q.rowClasses.length = i.rowCount)
    (hqcols : q.colClasses.length = i.colCount) (hrows : p.rowClasses.length = i.rowCount)
    (hcols : p.colClasses.length = i.colCount)
    (h : Finer (i.rowCount + i.colCount) (q.label i.rowCount) (p.label i.rowCount)) :
    q.Refines p := by
  obtain ⟨hfinerRows, hfinerCols⟩ := Partition.forall_label_eq.mp h
  constructor
  · refine getElem?_eq_of_within (hqrows.trans hrows.symm) fun r hr s hs heq => ?_
    rw [hqrows] at hr hs
    simpa [Partition.label, hr, hs] using hfinerRows r hr s hs heq
  · refine getElem?_eq_of_within (hqcols.trans hcols.symm) fun c hc d hd heq => ?_
    rw [hqcols] at hc hd
    simpa [Partition.label] using hfinerCols c hc d hd heq

/-- The edges of the incidence lead to nodes. -/
theorem neighbors_inside (hinside : ∀ e ∈ i.edges, e.row < i.rowCount ∧ e.col < i.colCount)
    {u : ℕ} (hu : u < i.rowCount + i.colCount) :
    ∀ q ∈ (adjacency i).getD u [], q.2 < i.rowCount + i.colCount := by
  intro q hq
  rw [getD_adjacency hu, neighbors, List.mem_flatMap] at hq
  obtain ⟨e, he, hq⟩ := hq
  have hlt := hinside e he
  rcases List.mem_append.mp hq with hq | hq
  · split at hq
    · rw [List.mem_singleton.mp hq]
      simp only
      omega
    · exact absurd hq List.not_mem_nil
  · split at hq
    · rw [List.mem_singleton.mp hq]
      simp only
      omega
    · exact absurd hq List.not_mem_nil

/-- A labelling tells apart what the first colours do when the classes of rows and of columns do. -/
theorem finer_colorLabel_iff : Finer (i.rowCount + i.colCount) (p.label i.rowCount) (colorLabel i)
    ↔ (∀ r < i.rowCount, ∀ s < i.rowCount, p.rowClasses[r]? = p.rowClasses[s]? →
        i.rowColors[r]? = i.rowColors[s]?)
      ∧ ∀ c < i.colCount, ∀ d < i.colCount, p.colClasses[c]? = p.colClasses[d]? →
        i.colColors[c]? = i.colColors[d]? := by
  rw [Finer, Partition.forall_label_eq]
  refine and_congr (forall₂_congr fun r hr => forall₂_congr fun s hs => ?_) ?_
  · simp [colorLabel, Partition.label, hr, hs]
  · simp [colorLabel, Partition.label]

/-- Nodes of one label see the same labels when rows and columns of one class have the same degrees. -/
theorem forall_seen_perm_iff (hinside : ∀ e ∈ i.edges, e.row < i.rowCount ∧ e.col < i.colCount)
    (hrows : p.rowClasses.length = i.rowCount) (hcols : p.colClasses.length = i.colCount) :
    (∀ u < i.rowCount + i.colCount, ∀ v < i.rowCount + i.colCount,
        p.label i.rowCount u = p.label i.rowCount v →
          (seen (p.label i.rowCount) ((adjacency i).getD u [])).Perm
            (seen (p.label i.rowCount) ((adjacency i).getD v [])))
      ↔ (∀ r < i.rowCount, ∀ s < i.rowCount, p.rowClasses[r]? = p.rowClasses[s]? →
          ∀ color cls, p.rowDegree i r color cls = p.rowDegree i s color cls)
        ∧ ∀ c < i.colCount, ∀ d < i.colCount, p.colClasses[c]? = p.colClasses[d]? →
          ∀ color cls, p.colDegree i c color cls = p.colDegree i d color cls := by
  have hrowSome : ∀ e ∈ i.edges, (p.rowClasses[e.row]?).isSome := by
    intro e he
    have hlt := (hinside e he).1
    simp [hrows, hlt]
  have hcolSome : ∀ e ∈ i.edges, (p.colClasses[e.col]?).isSome := by
    intro e he
    have hlt := (hinside e he).2
    simp [hcols, hlt]
  -- a row sees the classes of columns, and a column those of rows
  rw [Partition.forall_label_eq]
  refine and_congr (forall₂_congr fun r hr => forall₂_congr fun s hs => imp_congr_right fun _ => ?_)
    (forall₂_congr fun c hc => forall₂_congr fun d hd => imp_congr_right fun _ => ?_)
  · rw [getD_adjacency (by omega), getD_adjacency (by omega), seen_row_perm_iff hcolSome hr hs]
  · rw [getD_adjacency (by omega), getD_adjacency (by omega),
      seen_col_perm_iff (fun e he => (hinside e he).1) hrowSome]

/-- **Equitable partitions are the stable labellings.** -/
theorem equitable_iff_stable
    (hinside : ∀ e ∈ i.edges, e.row < i.rowCount ∧ e.col < i.colCount)
    (hrows : p.rowClasses.length = i.rowCount) (hcols : p.colClasses.length = i.colCount) :
    p.Equitable i ↔ Stable (i.rowCount + i.colCount) (adjacency i) (colorLabel i)
      (p.label i.rowCount) := by
  constructor
  · intro h
    exact ⟨finer_colorLabel_iff.mpr ⟨h.rowColors, h.colColors⟩,
      (forall_seen_perm_iff hinside hrows hcols).mpr ⟨h.rowDegrees, h.colDegrees⟩⟩
  · intro h
    obtain ⟨hrowColors, hcolColors⟩ := finer_colorLabel_iff.mp h.finer
    obtain ⟨hrowDegrees, hcolDegrees⟩ := (forall_seen_perm_iff hinside hrows hcols).mp h.seen_perm
    exact ⟨hrows, hcols, hrowColors, hcolColors, hrowDegrees, hcolDegrees⟩

/-- **The loop ends** after at most as many rounds as there are nodes, or one. -/
theorem exists_rounds_stableColors (i : ColoredIncidence) :
    ∃ k ≤ max 1 (i.rowCount + i.colCount), Rounds (adjacency i) k (initial i) (stableColors i) := by
  refine exists_rounds_refine length_adjacency length_initial ?_
  -- each round but the last adds a colour, and where there are nodes there is a colour at the start
  rcases Nat.eq_zero_or_pos (i.rowCount + i.colCount) with hzero | hpos
  · omega
  · have hcount : (initial i).getD 0 0 < labelCount (initial i) :=
      getD_relabel_lt (by simpa [ColoredIncidence.rowCount, ColoredIncidence.colCount] using hpos)
    omega

/-- There is a stable colour for each node. -/
theorem length_stableColors (i : ColoredIncidence) :
    (stableColors i).length = i.rowCount + i.colCount := by
  obtain ⟨k, -, hrounds⟩ := exists_rounds_stableColors i
  exact hrounds.length_eq length_adjacency length_initial

/-- Nodes of one stable colour have one colour of the incidence. -/
theorem finer_stableColors (i : ColoredIncidence) :
    Finer (i.rowCount + i.colCount) ((stableColors i).getD · 0) (colorLabel i) := by
  obtain ⟨k, -, hrounds⟩ := exists_rounds_stableColors i
  have hfirst : Finer (i.rowCount + i.colCount) ((initial i).getD · 0) (colorLabel i) :=
    fun u hu v hv heq => (initial_eq_iff hu hv).mp heq
  exact (hrounds.finer length_adjacency length_initial).trans hfirst

/-- The partition by stable colours is found when the edges join rows and columns. -/
theorem partition_eq_ok (hinside : ∀ e ∈ i.edges, e.row < i.rowCount ∧ e.col < i.colCount) :
    partition i = .ok (.ofLabels ((stableColors i).take i.rowCount)
      ((stableColors i).drop i.rowCount)) := by
  have hall : i.edges.all (isInside i) = true := by
    rw [List.all_eq_true]
    intro e he
    have hlt := hinside e he
    simp only [isInside, Bool.and_eq_true, decide_eq_true_eq]
    omega
  rw [partition, if_pos hall]

/-- **The partition by stable colours is equitable.** -/
theorem equitable_stableColors
    (hinside : ∀ e ∈ i.edges, e.row < i.rowCount ∧ e.col < i.colCount) :
    (Partition.ofLabels ((stableColors i).take i.rowCount)
      ((stableColors i).drop i.rowCount)).Equitable i := by
  have hlen := length_stableColors i
  have hnodes : ∀ u < i.rowCount + i.colCount, ∀ q ∈ (adjacency i).getD u [],
      q.2 < i.rowCount + i.colCount := fun u hu => neighbors_inside hinside hu
  obtain ⟨k, -, hrounds⟩ := exists_rounds_stableColors i
  have hstable : Stable (i.rowCount + i.colCount) (adjacency i) (colorLabel i)
      ((stableColors i).getD · 0) :=
    ⟨finer_stableColors i,
      fun u hu v hv => hrounds.seen_perm length_adjacency hnodes length_initial hu hv⟩
  -- the partition has the classes of the stable colours
  have hlabel := fun {u v} => label_ofLabels_eq_iff (u := u) (v := v) hlen (finer_stableColors i)
  have hrows : (Partition.ofLabels ((stableColors i).take i.rowCount)
      ((stableColors i).drop i.rowCount)).rowClasses.length = i.rowCount := by
    rw [Partition.ofLabels, length_relabel, List.length_take, hlen]
    omega
  have hcols : (Partition.ofLabels ((stableColors i).take i.rowCount)
      ((stableColors i).drop i.rowCount)).colClasses.length = i.colCount := by
    rw [Partition.ofLabels, length_relabel, List.length_drop, hlen]
    omega
  -- stability carries over from the colours to the classes
  rw [equitable_iff_stable hinside hrows hcols]
  exact hstable.congr hnodes (fun u hu v hv heq => (hlabel hu hv).mpr heq)
    fun u hu v hv heq => (hlabel hu hv).mp heq

/-- **Colour refinement finds the coarsest equitable partition.** For an incidence whose edges join its
rows and columns the loop ends after at most as many rounds as there are nodes, or one. The partition
by the colours it ends with is equitable, and every equitable partition refines it. -/
theorem partition_coarsest_equitable
    (hinside : ∀ e ∈ i.edges, e.row < i.rowCount ∧ e.col < i.colCount) :
    ∃ k ≤ max 1 (i.rowCount + i.colCount), ∃ colors, Rounds (adjacency i) k (initial i) colors
      ∧ ∃ p, partition i = .ok p
        ∧ p = .ofLabels (colors.take i.rowCount) (colors.drop i.rowCount)
        ∧ p.Equitable i ∧ ∀ q : Partition, q.Equitable i → q.Refines p := by
  have hnodes : ∀ u < i.rowCount + i.colCount, ∀ q ∈ (adjacency i).getD u [],
      q.2 < i.rowCount + i.colCount := fun u hu => neighbors_inside hinside hu
  obtain ⟨k, hk, hrounds⟩ := exists_rounds_stableColors i
  have hequitable := equitable_stableColors hinside
  refine ⟨k, hk, stableColors i, hrounds, _, partition_eq_ok hinside, rfl, hequitable,
    fun q hq => ?_⟩
  -- no round tells apart what a stable labelling keeps together
  have hqstable := (equitable_iff_stable hinside hq.rows hq.cols).mp hq
  have hqfirst : Finer (i.rowCount + i.colCount) (q.label i.rowCount) ((initial i).getD · 0) :=
    fun u hu v hv heq => (initial_eq_iff hu hv).mpr (hqstable.finer u hu v hv heq)
  have hqcolors := hrounds.finer_of_stable length_adjacency hnodes hqstable length_initial hqfirst
  exact refines_of_finer hq.rows hq.cols hequitable.rows hequitable.cols fun u hu v hv heq =>
    (label_ofLabels_eq_iff (length_stableColors i) (finer_stableColors i) hu hv).mpr
      (hqcolors u hu v hv heq)

/-- Two rows with two columns each and a row with one. -/
def starIncidence : ColoredIncidence where
  inequalities := 3
  rowColors := [0, 0, 0]
  colColors := [0, 0, 0, 0, 0]
  edges := [⟨0, 0, 0⟩, ⟨0, 1, 0⟩, ⟨1, 2, 0⟩, ⟨1, 3, 0⟩, ⟨2, 4, 0⟩]

/-- The third row and its column stand apart, since it has one edge where the others have two; nothing
else is told apart, and nothing else needs to be. -/
theorem partition_coarsest_equitable_stars :
    (∀ e ∈ starIncidence.edges, e.row < starIncidence.rowCount ∧ e.col < starIncidence.colCount)
      ∧ partition starIncidence = .ok ⟨[0, 0, 1], [0, 0, 0, 0, 1]⟩
      ∧ (Partition.mk [0, 0, 1] [0, 0, 0, 0, 1]).Equitable starIncidence
      ∧ ∀ q : Partition, q.Equitable starIncidence → q.Refines ⟨[0, 0, 1], [0, 0, 0, 0, 1]⟩ := by
  have hinside : ∀ e ∈ starIncidence.edges,
      e.row < starIncidence.rowCount ∧ e.col < starIncidence.colCount := by decide
  have hresult : partition starIncidence = .ok ⟨[0, 0, 1], [0, 0, 0, 0, 1]⟩ := by
    have hcolors : stableColors starIncidence = [0, 0, 1, 2, 2, 2, 2, 3] := by cbv
    rw [partition, if_pos (by decide), hcolors]
    rfl
  obtain ⟨-, -, -, -, p, hp, -, hequitable, hcoarsest⟩ := partition_coarsest_equitable hinside
  obtain rfl : ⟨[0, 0, 1], [0, 0, 0, 0, 1]⟩ = p := Except.ok.inj (hresult.symm.trans hp)
  exact ⟨hinside, hresult, hequitable, hcoarsest⟩

end ColorRefinement

end RelationalLP
