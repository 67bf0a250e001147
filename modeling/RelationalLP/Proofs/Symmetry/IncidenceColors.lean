import Mathlib
import RelationalLP.Proofs.Collections.BinarySearch
import RelationalLP.Proofs.Symmetry.CoarsestPartition
import RelationalLP.Symmetry.Lifting

/-! # Colours of an incidence

The colour of a number is the place of its key among the sorted keys of its kind: right sides of inequalities,
right sides of equations, coefficients of the objective, entries. In a lawful order numbers of one
colour have one key. An equitable partition keeps rows apart that differ in the colour of the right side,
or in the colours of their entries. -/

namespace RelationalLP

/-- What stands at a place of a list is a member. -/
theorem getD_mem_of_lt {α : Type} {xs : List α} {i : ℕ} (h : i < xs.length) (fill : α) :
    xs.getD i fill ∈ xs := by
  rw [List.getD_eq_getElem _ _ h]
  exact List.getElem_mem h

/-! ### Sorted keys -/

/-- Erasing repetitions leaves a part of the list. -/
theorem eraseRepsBy_sublist {α : Type} (same : α → α → Bool) (xs : List α) :
    (xs.eraseRepsBy same).Sublist xs := by
  have hloop : ∀ (a : α) (as kept : List α),
      (List.eraseRepsBy.loop same a as kept).Sublist (kept.reverse ++ a :: as) := by
    intro a as kept
    induction as generalizing a kept with
    | nil => rw [List.eraseRepsBy.loop, List.reverse_cons]
    | cons b as ih =>
      rw [List.eraseRepsBy.loop]
      split
      · exact (ih a kept).trans ((List.Sublist.refl _).append ((List.sublist_cons_self b as).cons_cons a))
      · simpa using ih b (a :: kept)
  cases xs with
  | nil => exact .refl _
  | cons a as => exact hloop a as []

/-- Nothing is lost where only equal items are the same. -/
theorem mem_eraseRepsBy {α : Type} {same : α → α → Bool} (h : ∀ {a b}, same a b = true → a = b)
    {x : α} {xs : List α} (hx : x ∈ xs) : x ∈ xs.eraseRepsBy same := by
  have hloop : ∀ {a : α} {as kept : List α}, x ∈ kept ∨ x ∈ a :: as →
      x ∈ List.eraseRepsBy.loop same a as kept := by
    intro a as kept hx
    induction as generalizing a kept with
    | nil => simpa [List.eraseRepsBy.loop, or_comm] using hx
    | cons b as ih =>
      rw [List.eraseRepsBy.loop]
      split
      · rename_i hsame
        obtain rfl := h hsame
        exact ih (hx.imp_right fun hx => by simpa using hx)
      · exact ih (by simpa [or_assoc, or_left_comm] using hx)
  cases xs with
  | nil => exact absurd hx List.not_mem_nil
  | cons a as => exact hloop (.inr hx)

variable {K : Type} [Scalar K]

/-- Keys that are in order need not be sorted. -/
theorem palette_of_pairwise {values : List K}
    (h : (values.map colorKey).Pairwise fun x y => (compare x y).isLE) : palette values
      = (let known := (values.map colorKey).eraseRepsBy fun x y => (compare x y).isEq
        (values.map fun v => BinarySearch.place (compare · (colorKey v)) known, known.length)) := by
  rw [palette, sortedKeys, List.mergeSort_of_pairwise h]

/-- Sorted keys are sorted for the search of a key. -/
theorem sortedFor_sortedKeys [Std.TransOrd K] (values : List K) (key : K) :
    BinarySearch.SortedFor (compare · key) (sortedKeys values) := by
  have htrans : ∀ x y z : K, (compare x y).isLE = true → (compare y z).isLE = true →
      (compare x z).isLE = true := fun _ _ _ => Std.TransCmp.isLE_trans
  have htotal : ∀ x y : K, ((compare x y).isLE || (compare y x).isLE) = true := by
    intro x y
    have hswap : compare y x = (compare x y).swap := Std.OrientedCmp.eq_swap
    rw [hswap]
    cases compare x y <;> rfl
  have hsorted : ((values.map colorKey).mergeSort fun x y => (compare x y).isLE).Pairwise
      fun x y => (compare x y).isLE := List.pairwise_mergeSort htrans htotal _
  refine (hsorted.sublist (eraseRepsBy_sublist _ _)).imp fun {x y} hle => ⟨fun hy => ?_, fun hx => ?_⟩
  · exact Std.TransCmp.lt_of_isLE_of_lt hle hy
  · exact Std.OrientedCmp.gt_of_lt (Std.TransCmp.lt_of_lt_of_isLE (Std.OrientedCmp.lt_of_gt hx) hle)

/-- The keys of all values are among the sorted ones. -/
theorem mem_sortedKeys [Std.LawfulEqOrd K] {values : List K} {v : K} (hv : v ∈ values) :
    colorKey v ∈ sortedKeys values := by
  have hequal : ∀ {x y : K}, (compare x y).isEq = true → x = y := fun h =>
    Std.LawfulEqCmp.eq_of_compare (Ordering.isEq_iff_eq_eq.mp h)
  refine mem_eraseRepsBy hequal ?_
  exact (List.mergeSort_perm _ _).mem_iff.mpr (List.mem_map_of_mem hv)

/-- The place of the key of a number among the sorted keys of some numbers. -/
def keyRank (values : List K) (v : K) : ℕ :=
  BinarySearch.place (compare · (colorKey v)) (sortedKeys values)

theorem palette_eq_map_keyRank (values : List K) :
    (palette values).1 = values.map (keyRank values) := rfl

/-- **The search of a key finds it.** -/
theorem getElem?_keyRank [Std.TransOrd K] [Std.LawfulEqOrd K] {values : List K} {v : K}
    (hv : v ∈ values) : (sortedKeys values)[keyRank values v]? = some (colorKey v) := by
  obtain ⟨key, hkey, heq⟩ := BinarySearch.exists_getElem?_place
    (sortedFor_sortedKeys values (colorKey v)) (mem_sortedKeys hv) Std.ReflCmp.compare_self
  rw [keyRank, hkey, Std.LawfulEqCmp.eq_of_compare heq]

/-- **Numbers of one rank have one key.** -/
theorem colorKey_eq_of_keyRank_eq [Std.TransOrd K] [Std.LawfulEqOrd K] {values : List K} {v w : K}
    (hv : v ∈ values) (hw : w ∈ values) (h : keyRank values v = keyRank values w) :
    colorKey v = colorKey w :=
  Option.some.inj (getElem?_keyRank hv ▸ h ▸ getElem?_keyRank hw)

/-! ### Colours of a program -/

namespace LinearProgram

variable (lp : LinearProgram K)

/-- The stored entries of both matrices, with the rows of equations after those of inequalities. -/
def allEntries : List (Position × K) :=
  lp.g.entries ++ lp.a.entries.map fun e => ((e.1.1 + lp.inequalityCount, e.1.2), e.2)

theorem rowColors_ofProgram : (ColoredIncidence.ofProgram lp).rowColors
    = lp.h.map (keyRank lp.h) ++ (lp.b.map (keyRank lp.b)).map (· + (palette lp.h).2) := by
  rw [← palette_eq_map_keyRank, ← palette_eq_map_keyRank]
  rfl

theorem colColors_ofProgram :
    (ColoredIncidence.ofProgram lp).colColors = lp.c.map (keyRank lp.c) := by
  rw [← palette_eq_map_keyRank]
  rfl

theorem edges_ofProgram : (ColoredIncidence.ofProgram lp).edges
    = lp.allEntries.map fun e => ⟨e.1.1, e.1.2, keyRank (lp.allEntries.map Prod.snd) e.2⟩ := by
  show List.zipWith (fun e color => ColoredEdge.mk e.1.1 e.1.2 color) lp.allEntries
    (palette (lp.allEntries.map Prod.snd)).1 = _
  rw [palette_eq_map_keyRank, List.map_map, List.zipWith_map_right, List.zipWith_self]
  rfl

theorem rowCount_ofProgram : (ColoredIncidence.ofProgram lp).rowCount
    = lp.inequalityCount + lp.equationCount := by
  rw [ColoredIncidence.rowCount, rowColors_ofProgram]
  simp [inequalityCount, equationCount]

theorem colCount_ofProgram : (ColoredIncidence.ofProgram lp).colCount = lp.columnCount := by
  rw [ColoredIncidence.colCount, colColors_ofProgram, List.length_map, columnCount]

/-! ### Rows of one class -/

variable {lp} {p : Partition}

/-- Inequalities of one class have right sides of one rank. -/
theorem keyRank_inequality_eq (he : p.Equitable (ColoredIncidence.ofProgram lp)) {i r : ℕ}
    (hi : i < lp.inequalityCount) (hr : r < lp.inequalityCount)
    (hclass : p.rowClasses[i]? = p.rowClasses[r]?) :
    keyRank lp.h (lp.h.getD i 0) = keyRank lp.h (lp.h.getD r 0) := by
  have hcount := rowCount_ofProgram lp
  have hcolor := he.rowColors i (by omega) r (by omega) hclass
  rw [inequalityCount] at hi hr
  rw [rowColors_ofProgram, List.getElem?_append_left (by simpa), List.getElem?_append_left (by simpa),
    List.getElem?_map, List.getElem?_map, List.getElem?_eq_getElem hi, List.getElem?_eq_getElem hr,
    Option.map_some, Option.map_some, Option.some.injEq] at hcolor
  rwa [List.getD_eq_getElem _ _ hi, List.getD_eq_getElem _ _ hr]

/-- Equations of one class have right sides of one rank. -/
theorem keyRank_equation_eq (he : p.Equitable (ColoredIncidence.ofProgram lp)) {i r : ℕ}
    (hi : i < lp.equationCount) (hr : r < lp.equationCount)
    (hclass : p.rowClasses[lp.inequalityCount + i]? = p.rowClasses[lp.inequalityCount + r]?) :
    keyRank lp.b (lp.b.getD i 0) = keyRank lp.b (lp.b.getD r 0) := by
  have hcount := rowCount_ofProgram lp
  have hcolor := he.rowColors (lp.inequalityCount + i) (by omega) (lp.inequalityCount + r) (by omega)
    hclass
  have hlen : (lp.h.map (keyRank lp.h)).length = lp.inequalityCount := List.length_map _
  rw [equationCount] at hi hr
  rw [rowColors_ofProgram, List.getElem?_append_right (by omega), hlen, Nat.add_sub_cancel_left,
    List.getElem?_append_right (by omega), hlen, Nat.add_sub_cancel_left, List.map_map,
    List.getElem?_map, List.getElem?_map, List.getElem?_eq_getElem hi, List.getElem?_eq_getElem hr,
    Option.map_some, Option.map_some, Option.some.injEq] at hcolor
  rw [List.getD_eq_getElem _ _ hi, List.getD_eq_getElem _ _ hr]
  exact Nat.add_right_cancel hcolor

/-- Each entry of a row has an entry of its rank in every row of the class. -/
theorem exists_entry_of_rowClass (he : p.Equitable (ColoredIncidence.ofProgram lp))
    (hinside : ∀ e ∈ lp.allEntries,
      e.1.1 < lp.inequalityCount + lp.equationCount ∧ e.1.2 < lp.columnCount)
    {e : Position × K} (hmem : e ∈ lp.allEntries) {r : ℕ}
    (hr : r < lp.inequalityCount + lp.equationCount)
    (hclass : p.rowClasses[e.1.1]? = p.rowClasses[r]?) :
    ∃ d ∈ lp.allEntries, d.1.1 = r
      ∧ keyRank (lp.allEntries.map Prod.snd) d.2 = keyRank (lp.allEntries.map Prod.snd) e.2 := by
  obtain ⟨hrow, hcol⟩ := hinside e hmem
  rw [← rowCount_ofProgram] at hrow hr
  rw [← colCount_ofProgram, ← he.cols] at hcol
  have hdegree := he.rowDegrees e.1.1 hrow r hr hclass
    (keyRank (lp.allEntries.map Prod.snd) e.2) p.colClasses[e.1.2]
  -- the entry itself is counted, so something is counted in the other row
  have hpos : 0 < p.rowDegree (ColoredIncidence.ofProgram lp) e.1.1
      (keyRank (lp.allEntries.map Prod.snd) e.2) p.colClasses[e.1.2] := by
    rw [Partition.rowDegree, edges_ofProgram, List.countP_pos_iff]
    exact ⟨_, List.mem_map_of_mem hmem, by simp [List.getElem?_eq_getElem hcol]⟩
  rw [hdegree, Partition.rowDegree, edges_ofProgram, List.countP_pos_iff] at hpos
  obtain ⟨_, hedge, hcounted⟩ := hpos
  obtain ⟨d, hd, rfl⟩ := List.mem_map.mp hedge
  obtain ⟨hdrow, hdrank, -⟩ : d.1.1 = r ∧ _ ∧ _ := by simpa using hcounted
  exact ⟨d, hd, hdrow, hdrank⟩

/-- **What lifting by colour refinement returns** is the reduction by a partition that is equitable for
the colours of the program: the one that refining its incidence gives. -/
theorem exists_equitable_of_lift
    (hinside : ∀ e ∈ lp.allEntries,
      e.1.1 < lp.inequalityCount + lp.equationCount ∧ e.1.2 < lp.columnCount)
    {l : LiftedProgram K} (hl : lp.lift ColorRefinement.partition = .ok l) :
    ∃ p : Partition, ColoredIncidence.ofProgram? lp = some (ColoredIncidence.ofProgram lp)
      ∧ ColorRefinement.partition (ColoredIncidence.ofProgram lp) = .ok p
      ∧ p.Equitable (ColoredIncidence.ofProgram lp)
      ∧ (∀ j < lp.columnCount, p.colClasses.getD j 0 < p.colClassCount)
      ∧ lp.liftWith p = .ok l := by
  have hedges : ∀ e ∈ (ColoredIncidence.ofProgram lp).edges,
      e.row < (ColoredIncidence.ofProgram lp).rowCount
        ∧ e.col < (ColoredIncidence.ofProgram lp).colCount := by
    rw [edges_ofProgram, List.forall_mem_map, rowCount_ofProgram, colCount_ofProgram]
    exact hinside
  have he := ColorRefinement.equitable_stableColors hedges
  have hcols := he.cols
  rw [Partition.ofLabels, length_relabel, colCount_ofProgram] at hcols
  -- colours that run out would be refused, so the incidence of the program is the one that is refined
  have hincidence : ColoredIncidence.ofProgram? lp = some (ColoredIncidence.ofProgram lp) := by
    rw [ColoredIncidence.ofProgram?]
    refine if_pos ?_
    by_contra hover
    rw [lift, ColoredIncidence.ofProgram?, if_neg hover] at hl
    cases hl
  have hpartition := ColorRefinement.partition_eq_ok hedges
  refine ⟨_, hincidence, hpartition, he, fun j hj => getD_relabel_lt (hcols.symm ▸ hj), ?_⟩
  rw [lift, hincidence] at hl
  simp only [hpartition] at hl
  exact hl

end LinearProgram

end RelationalLP
