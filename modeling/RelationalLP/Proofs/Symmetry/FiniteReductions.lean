import Mathlib
import RelationalLP.Proofs.Collections.Traversal
import RelationalLP.Proofs.Linear.DoubleSums
import RelationalLP.Proofs.Symmetry.Lossless
import RelationalLP.Proofs.Symmetry.Rounding
import RelationalLP.Solving.Simplex

/-! # Lifting and the checks of a program

The solver sees the reduced program, so what it checks is the reduced program. A number that is not
finite stays in the reduction: numbers of one colour are finite together, so the kept rows have one where
the dropped rows had one, and no sum that it goes into is finite. The sizes of the matrices do not stay:
the reduction has sizes of its own. Main statements: `lifted_eq_error_of_nonFinite`,
`lifted_hides_spareRightSide`. -/

namespace RelationalLP

namespace LinearProgram

variable {lp : LinearProgram Double} {p : Partition}

/-- A total is finite only when the totals before it and the numbers of its class are. -/
theorem isFinite_of_foldl_class {k : ℕ} {items : List (ℕ × Double)} {total : Double}
    (h : (items.foldl (fun total (j, v) => if j = k then total + v else total) total).isFinite) :
    total.isFinite ∧ ∀ v, (k, v) ∈ items → v.isFinite := by
  induction items generalizing total with
  | nil => exact ⟨h, by simp⟩
  | cons e items ih =>
    obtain ⟨hstep, hitems⟩ := ih h
    have hstep : (if e.1 = k then total + e.2 else total).isFinite := hstep
    by_cases hek : e.1 = k
    · rw [if_pos hek] at hstep
      obtain ⟨htotal, he⟩ := Double.isFinite_of_isFinite_add hstep
      refine ⟨htotal, fun v hv => ?_⟩
      rcases List.mem_cons.mp hv with rfl | hv
      · exact he
      · exact hitems v hv
    · rw [if_neg hek] at hstep
      refine ⟨hstep, fun v hv => ?_⟩
      rcases List.mem_cons.mp hv with rfl | hv
      · exact absurd rfl hek
      · exact hitems v hv

/-- A merged objective is finite only when the coefficients of its classes are. -/
theorem isFinite_of_mergeObjective {c : List Double} {classes : List ℕ} {count : ℕ}
    (h : ∀ x ∈ mergeObjective c classes count, x.isFinite) {k : ℕ} {v : Double}
    (hmem : (k, v) ∈ classes.zip c) (hk : k < count) : v.isFinite :=
  (isFinite_of_foldl_class (h _ (List.mem_map_of_mem (List.mem_range.mpr hk)))).2 v hmem

/-! ### Finite programs -/

/-- All numbers of a program are finite. -/
def IsFinite (lp : LinearProgram Double) : Prop :=
  ∀ part ∈ lp.finiteChecks, ∀ x ∈ part.2, x.isFinite

theorem isFinite_iff : lp.IsFinite ↔ (∀ x ∈ lp.c, x.isFinite) ∧ (∀ x ∈ lp.h, x.isFinite)
    ∧ (∀ x ∈ lp.b, x.isFinite) ∧ AllFinite lp.g.entries ∧ AllFinite lp.a.entries := by
  simp only [IsFinite, finiteChecks, List.forall_mem_cons, List.forall_mem_map, List.forall_mem_append,
    AllFinite]
  simp

/-- Doubles of one colour are finite together. -/
theorem isFinite_of_keyRank_eq {values : List Double} {v w : Double} (hv : v ∈ values)
    (hw : w ∈ values) (h : keyRank values v = keyRank values w) : v.isFinite = w.isFinite := by
  rw [← Double.isFinite_colorKey, colorKey_eq_of_keyRank_eq hv hw h, Double.isFinite_colorKey]

/-- Every stored entry has a right side and a column. -/
structure EntriesInside (lp : LinearProgram Double) : Prop where
  /-- Those of the inequalities. -/
  g : ∀ e ∈ lp.g.entries, e.1.1 < lp.inequalityCount ∧ e.1.2 < lp.columnCount
  /-- Those of the equations. -/
  a : ∀ e ∈ lp.a.entries, e.1.1 < lp.equationCount ∧ e.1.2 < lp.columnCount

theorem EntriesInside.allEntries (h : lp.EntriesInside) : ∀ e ∈ lp.allEntries,
    e.1.1 < lp.inequalityCount + lp.equationCount ∧ e.1.2 < lp.columnCount := by
  rw [LinearProgram.allEntries, List.forall_mem_append, List.forall_mem_map]
  refine ⟨fun e he => ?_, fun e he => ?_⟩
  · obtain ⟨hrow, hcol⟩ := h.g e he
    exact ⟨by omega, hcol⟩
  · obtain ⟨hrow, hcol⟩ := h.a e he
    exact ⟨by show e.1.1 + _ < _; omega, hcol⟩

/-- A reduced matrix is finite only when the kept rows are. -/
theorem isFinite_of_mem_kept {m : SparseMatrix Double} (hm : SortedByPosition m.entries)
    {rows : List ℕ} {classOf : ℕ → ℕ} {cols : ℕ}
    (hfin : AllFinite ((m.selectRows rows).mergeColumns classOf cols).entries) :
    ∀ e ∈ m.entries, e.1.1 ∈ rows → e.2.isFinite := fun _ he hrow =>
  SparseMatrix.isFinite_of_selectRows hm (SparseMatrix.allFinite_of_mergeColumns hfin) he hrow

/-! ### Reductions -/

/-- The entries in rows of inequalities are those of the first matrix. -/
theorem mem_g_of_lt {e : Position × Double} (he : e ∈ lp.allEntries)
    (hrow : e.1.1 < lp.inequalityCount) : e ∈ lp.g.entries := by
  rcases List.mem_append.mp he with he | he
  · exact he
  · obtain ⟨d, -, rfl⟩ := List.mem_map.mp he
    exact absurd hrow (Nat.not_lt.mpr (Nat.le_add_left _ _))

/-- The entries in rows of equations are those of the second matrix. -/
theorem EntriesInside.mem_a_of_eq_add (h : lp.EntriesInside) {e : Position × Double}
    (he : e ∈ lp.allEntries) {r : ℕ} (hrow : e.1.1 = lp.inequalityCount + r) :
    ((r, e.1.2), e.2) ∈ lp.a.entries := by
  rcases List.mem_append.mp he with he | he
  · have hlt := (h.g e he).1
    omega
  · obtain ⟨d, hd, rfl⟩ := List.mem_map.mp he
    obtain rfl : d.1.1 = r := Nat.add_right_cancel (hrow.trans (Nat.add_comm _ _))
    exact hd

section Reduction

variable (hinside : lp.EntriesInside) (he : p.Equitable (ColoredIncidence.ofProgram lp))

include he

theorem length_rowClasses : p.rowClasses.length = lp.inequalityCount + lp.equationCount :=
  he.rows.trans (rowCount_ofProgram lp)

/-- The kept right sides of inequalities are finite only when all are. -/
theorem isFinite_h_of_kept
    (h : ∀ r ∈ representatives (p.rowClasses.take lp.inequalityCount), (lp.h.getD r 0).isFinite) :
    ∀ x ∈ lp.h, x.isFinite := by
  intro x hx
  obtain ⟨i, hi, rfl⟩ := List.getElem_of_mem hx
  have hrows := length_rowClasses he
  obtain ⟨r, hr, hrlt, hclass⟩ := exists_representative_take
    (show lp.inequalityCount ≤ p.rowClasses.length by omega) (show i < lp.inequalityCount from hi)
  have hrank := keyRank_inequality_eq he hi hrlt hclass
  rw [← List.getD_eq_getElem _ 0 hi,
    isFinite_of_keyRank_eq (getD_mem_of_lt hi 0) (getD_mem_of_lt hrlt 0) hrank]
  exact h r hr

/-- The kept right sides of equations are finite only when all are. -/
theorem isFinite_b_of_kept
    (h : ∀ r ∈ representatives (p.rowClasses.drop lp.inequalityCount), (lp.b.getD r 0).isFinite) :
    ∀ x ∈ lp.b, x.isFinite := by
  intro x hx
  obtain ⟨i, hi, rfl⟩ := List.getElem_of_mem hx
  have hrows := length_rowClasses he
  have hi' : i < lp.equationCount := hi
  obtain ⟨r, hr, hrlt, hclass⟩ := exists_representative_drop
    (show lp.inequalityCount + i < p.rowClasses.length by omega)
  have hrlt' : r < lp.equationCount := by omega
  have hrank := keyRank_equation_eq he hi hrlt' hclass
  rw [← List.getD_eq_getElem _ 0 hi,
    isFinite_of_keyRank_eq (getD_mem_of_lt hi 0) (getD_mem_of_lt hrlt' 0) hrank]
  exact h r hr

include hinside

/-- The entries of the kept inequalities are finite only when those of all inequalities are. -/
theorem allFinite_g_of_kept (h : ∀ e ∈ lp.g.entries,
      e.1.1 ∈ representatives (p.rowClasses.take lp.inequalityCount) → e.2.isFinite) :
    AllFinite lp.g.entries := by
  intro e hmem
  have hall : e ∈ lp.allEntries := List.mem_append_left _ hmem
  have hrows := length_rowClasses he
  obtain ⟨r, hr, hrlt, hclass⟩ := exists_representative_take
    (show lp.inequalityCount ≤ p.rowClasses.length by omega) (hinside.g e hmem).1
  -- the kept row of the class has an entry of the same colour
  obtain ⟨d, hd, hdrow, hrank⟩ := exists_entry_of_rowClass he hinside.allEntries hall
    (show r < lp.inequalityCount + lp.equationCount by omega) hclass
  subst hdrow
  rw [← isFinite_of_keyRank_eq (List.mem_map_of_mem hd) (List.mem_map_of_mem hall) hrank]
  exact h d (mem_g_of_lt hd hrlt) hr

/-- The entries of the kept equations are finite only when those of all equations are. -/
theorem allFinite_a_of_kept (h : ∀ e ∈ lp.a.entries,
      e.1.1 ∈ representatives (p.rowClasses.drop lp.inequalityCount) → e.2.isFinite) :
    AllFinite lp.a.entries := by
  intro e hmem
  have hall : ((e.1.1 + lp.inequalityCount, e.1.2), e.2) ∈ lp.allEntries :=
    List.mem_append_right _ (List.mem_map.mpr ⟨e, hmem, rfl⟩)
  have hrows := length_rowClasses he
  have hrow := (hinside.a e hmem).1
  obtain ⟨r, hr, hrlt, hclass⟩ := exists_representative_drop
    (show lp.inequalityCount + e.1.1 < p.rowClasses.length by omega)
  -- rows of equations stand after those of inequalities
  rw [Nat.add_comm lp.inequalityCount e.1.1] at hclass
  obtain ⟨d, hd, hdrow, hrank⟩ := exists_entry_of_rowClass he hinside.allEntries hall
    (hrlt.trans_eq hrows) hclass
  have hfinite := isFinite_of_keyRank_eq (List.mem_map_of_mem hd) (List.mem_map_of_mem hall) hrank
  rw [← show d.2.isFinite = e.2.isFinite from hfinite]
  exact h ((r, d.1.2), d.2) (hinside.mem_a_of_eq_add hd hdrow) hr

/-- **A reduction by an equitable partition is finite only when the program is.** -/
theorem isFinite_of_liftWith (hg : SortedByPosition lp.g.entries) (ha : SortedByPosition lp.a.entries)
    (hN : ∀ j < lp.columnCount, p.colClass j < p.colClassCount)
    {l : LiftedProgram Double} (hl : lp.liftWith p = .ok l) (hfin : l.reduced.IsFinite) :
    lp.IsFinite := by
  obtain rfl := eq_of_liftWith_eq_ok hl
  rw [isFinite_iff, reduction, List.forall_mem_map, List.forall_mem_map] at hfin
  obtain ⟨hc, hh, hb, hgfin, hafin⟩ := hfin
  have hcols : p.colClasses.length = lp.columnCount := he.cols.trans (colCount_ofProgram lp)
  refine isFinite_iff.mpr ⟨fun x hx => ?_, isFinite_h_of_kept he hh, isFinite_b_of_kept he hb,
    allFinite_g_of_kept hinside he (isFinite_of_mem_kept hg hgfin),
    allFinite_a_of_kept hinside he (isFinite_of_mem_kept ha hafin)⟩
  -- a coefficient of the objective is part of the sum of its class
  obtain ⟨j, hj, rfl⟩ := List.getElem_of_mem hx
  have hj' : j < p.colClasses.length := hcols.symm ▸ hj
  refine isFinite_of_mergeObjective hc (k := p.colClass j) ?_ (hN j hj)
  have hzip : j < (p.colClasses.zip lp.c).length := by
    rw [List.length_zip]
    exact lt_min hj' hj
  have hpair : (p.colClasses.zip lp.c)[j] = (p.colClass j, lp.c[j]) := by
    rw [List.getElem_zip, Partition.colClass, List.getD_eq_getElem _ _ hj']
  exact hpair ▸ List.getElem_mem hzip

end Reduction

/-! ### Checks -/

/-- What the checks refuse for a number is not finite. -/
theorem not_isFinite_of_validate {what : String} (h : lp.validate = .error (.nonFinite what)) :
    ¬ lp.IsFinite := by
  intro hfin
  rw [validate] at h
  split at h
  · cases h
  · split at h
    · rename_i part values hfind
      have hfault := List.find?_some hfind
      have hfine : values.all Scalar.isFinite = true :=
        List.all_eq_true.mpr (hfin _ (List.mem_of_find?_eq_some hfind))
      rw [Bool.not_eq_true', hfine] at hfault
      cases hfault
    · cases h

/-- What passes the checks is finite. -/
theorem isFinite_of_validate_eq_ok (h : lp.validate = .ok ()) : lp.IsFinite := by
  rw [validate] at h
  split at h
  · cases h
  · split at h
    · cases h
    · rename_i hnone
      intro part hpart
      have hfine := List.find?_eq_none.mp hnone part hpart
      rw [Bool.not_eq_true', Bool.not_eq_false] at hfine
      exact List.all_eq_true.mp hfine

/-- Where the sizes agree, the entries lie inside. -/
theorem entriesInside_of_validate (hg : lp.g.WellFormed) (ha : lp.a.WellFormed)
    (h : ∀ what expected found, lp.validate ≠ .error (.dimension what expected found)) :
    lp.EntriesInside := by
  obtain ⟨hgc, hac, hgr, har⟩ := sizes_of_validate h
  exact ⟨fun e he => hgr ▸ hgc ▸ hg.inside e he, fun e he => har ▸ hac ▸ ha.inside e he⟩

/-- **Lifting refuses what is not finite.** When the checks refuse a program for a number that is not
finite, it is refused as well when it is solved through lifting, and it is left unsolved. -/
theorem lifted_eq_error_of_nonFinite (options : SimplexOptions Double) (lp : LinearProgram Double)
    (hg : lp.g.WellFormed) (ha : lp.a.WellFormed) {what : String}
    (h : lp.validate = .error (.nonFinite what)) :
    ∃ e, Solver.lifted (Simplex.solve options) ColorRefinement.partition lp = .error e
      ∧ SolveStatus.ofResult
          (Solver.lifted (Simplex.solve options) ColorRefinement.partition lp) = .unsolved := by
  have hinside := entriesInside_of_validate hg ha fun _ _ _ hsize => nomatch h.symm.trans hsize
  suffices ∃ e, Solver.lifted (Simplex.solve options) ColorRefinement.partition lp = .error e by
    obtain ⟨e, he⟩ := this
    exact ⟨e, he, by rw [he]; rfl⟩
  rw [Solver.lifted]
  cases hl : lp.lift ColorRefinement.partition with
  | error e => exact ⟨_, rfl⟩
  | ok l =>
    obtain ⟨p, -, -, he, hN, hlift⟩ := exists_equitable_of_lift hinside.allEntries hl
    -- if the reduction passed the checks, it would be finite, and so would the program
    have hreduced : l.reduced.validate ≠ .ok () := fun hok =>
      not_isFinite_of_validate h
        (isFinite_of_liftWith hinside he hg.sorted ha.sorted hN hlift (isFinite_of_validate_eq_ok hok))
    cases hvalid : l.reduced.validate with
    | ok u => exact absurd hvalid hreduced
    | error e =>
      refine ⟨e, ?_⟩
      simp only [Simplex.solve, hvalid, bind, Except.bind]

/-- An infinite coefficient in both of two rows that fall into one class. -/
def infiniteRows : LinearProgram Double where
  c := [1, 1]
  g := .ofTriplets 2 2 [((0, 0), ⟨0x7ff0000000000000⟩), ((1, 1), ⟨0x7ff0000000000000⟩)]
  h := [1, 1]
  a := .ofTriplets 0 2 []
  b := []

/-- The infinite rows are refused before and after lifting. -/
theorem lifted_eq_error_infiniteRows :
    infiniteRows.g.WellFormed ∧ infiniteRows.a.WellFormed
      ∧ infiniteRows.validate = .error (.nonFinite "G/A")
      ∧ ∃ e, Solver.lifted (Simplex.solve .standard) ColorRefinement.partition infiniteRows = .error e
        ∧ SolveStatus.ofResult
          (Solver.lifted (Simplex.solve .standard) ColorRefinement.partition infiniteRows)
            = .unsolved := by
  have hg : infiniteRows.g.WellFormed := SparseMatrix.wellFormed_ofTriplets (by decide)
  have ha : infiniteRows.a.WellFormed := SparseMatrix.wellFormed_ofTriplets (by decide)
  have hvalid : infiniteRows.validate = .error (.nonFinite "G/A") := by decide +kernel
  exact ⟨hg, ha, hvalid, lifted_eq_error_of_nonFinite .standard infiniteRows hg ha hvalid⟩

/-! ### Sizes -/

/-- A lower bound, and a right side that has no row. -/
def spareRightSide : LinearProgram Double where
  c := [1]
  g := .ofTriplets 1 1 [((0, 0), -1)]
  h := [-1, 1]
  a := .ofTriplets 0 1 []
  b := []

theorem partition_spareRightSide :
    ColorRefinement.partition ⟨2, [0, 1], [0], [⟨0, 0, 0⟩]⟩ = .ok ⟨[0, 1], [0]⟩ := by
  have hcolors : ColorRefinement.stableColors ⟨2, [0, 1], [0], [⟨0, 0, 0⟩]⟩ = [0, 1, 2] := by cbv
  rw [ColorRefinement.partition, if_pos (by decide), hcolors]
  rfl

/-- **Lifting hides sizes that disagree**: a program with one right side too many does not pass the
checks, and an optimum is found all the same. -/
theorem lifted_hides_spareRightSide :
    spareRightSide.g.WellFormed ∧ spareRightSide.a.WellFormed
      ∧ spareRightSide.validate = .error (.dimension "h" 1 2)
      ∧ SolveStatus.ofResult
          (Solver.lifted (Simplex.solve .standard) ColorRefinement.partition spareRightSide)
            = .optimal := by
  -- each row has a colour of its own, so nothing is merged and the row without entries is kept
  have hincidence : ColoredIncidence.ofProgram? spareRightSide
      = some ⟨2, [0, 1], [0], [⟨0, 0, 0⟩]⟩ := by
    have hsides : (spareRightSide.h.map colorKey).Pairwise fun x y => (compare x y).isLE := by
      decide +kernel
    rw [ColoredIncidence.ofProgram?, if_pos (by decide +kernel), ColoredIncidence.ofProgram,
      palette_of_pairwise hsides]
    decide +kernel
  refine ⟨SparseMatrix.wellFormed_ofTriplets (by decide),
    SparseMatrix.wellFormed_ofTriplets (by decide), by decide +kernel, ?_⟩
  rw [Solver.lifted, lift, hincidence]
  simp only [partition_spareRightSide, bind, Except.bind]
  decide +kernel

end LinearProgram

end RelationalLP
