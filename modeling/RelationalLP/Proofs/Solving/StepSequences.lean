import Mathlib
import RelationalLP.Proofs.Solving.Termination

/-! # The steps of a run

A run loads costs twice and pivots in between: in phase one, when artificial columns are driven out, and
in phase two. Each loop chooses its pivots by a rule of its own, and with any tolerance that is not
negative each choice is a nonzero cell in a column that is not basic. So the tableau is in basic form
after every step, whatever the rules. -/

namespace RelationalLP

namespace Tableau

/-! ### Steps -/

/-- A step of a run. -/
inductive Step where
  /-- Costs are loaded. -/
  | price (costs : List ℚ)
  /-- A column becomes basic in a row. -/
  | pivot (row col : ℕ)
  deriving DecidableEq

/-- The tableau after a step. -/
def perform (t : Tableau ℚ) : Step → Tableau ℚ
  | .price costs => t.price costs
  | .pivot row col => t.pivot row col

/-- The tableau after a list of steps. -/
def performAll (t : Tableau ℚ) (steps : List Step) : Tableau ℚ := steps.foldl perform t

@[simp] theorem performAll_nil (t : Tableau ℚ) : t.performAll [] = t := rfl

@[simp] theorem performAll_cons (t : Tableau ℚ) (step : Step) (steps : List Step) :
    t.performAll (step :: steps) = (t.perform step).performAll steps := rfl

theorem performAll_append (t : Tableau ℚ) (done rest : List Step) :
    t.performAll (done ++ rest) = (t.performAll done).performAll rest := List.foldl_append

theorem structural_performAll (t : Tableau ℚ) (steps : List Step) :
    (t.performAll steps).structural = t.structural := by
  induction steps generalizing t with
  | nil => rfl
  | cons step steps ih =>
    rw [performAll_cons, ih]
    cases step <;> rfl

/-- **The steps that a tableau allows**: costs for its columns, and pivots on a nonzero cell in one of its
rows and in a column that is not basic. -/
inductive Allows (t : Tableau ℚ) : Step → Prop where
  /-- There are no more costs than columns. -/
  | price {costs : List ℚ} (hcosts : costs.length ≤ t.rhsColumn) : t.Allows (.price costs)
  /-- The pivot is a nonzero cell, and its column enters the basis. -/
  | pivot {row col : ℕ} (hrow : row < t.height) (hcol : col < t.rhsColumn)
      (hcell : t.cell row col ≠ 0) (henters : col ∉ t.basis) : t.Allows (.pivot row col)

/-- Each step is allowed by the tableau that the steps before it leave. -/
def AllowsAll (t : Tableau ℚ) (steps : List Step) : Prop :=
  ∀ done step rest, steps = done ++ step :: rest → (t.performAll done).Allows step

variable {first t : Tableau ℚ} {steps : List Step} {step : Step}

theorem allowsAll_nil (t : Tableau ℚ) : t.AllowsAll [] := fun done _ _ h => by
  cases done <;> exact nomatch h

theorem AllowsAll.cons (hstep : t.Allows step) (hsteps : (t.perform step).AllowsAll steps) :
    t.AllowsAll (step :: steps) := by
  intro done next rest h
  cases done with
  | nil =>
    obtain ⟨rfl, -⟩ := List.cons.inj h
    exact hstep
  | cons before done =>
    obtain ⟨rfl, heq⟩ := List.cons.inj h
    exact hsteps done next rest heq

/-- What is left after a first step is allowed. -/
theorem AllowsAll.tail (h : t.AllowsAll (step :: steps)) : (t.perform step).AllowsAll steps :=
  fun done next rest heq => h (step :: done) next rest (by rw [heq, List.cons_append])

/-- Steps after steps are allowed together. -/
theorem AllowsAll.append {more : List Step} (h : t.AllowsAll steps)
    (hmore : (t.performAll steps).AllowsAll more) : t.AllowsAll (steps ++ more) := by
  induction steps generalizing t with
  | nil => exact hmore
  | cons step steps ih =>
    exact .cons (h [] step steps rfl) (ih h.tail hmore)

/-- The first of some steps are allowed. -/
theorem AllowsAll.of_append {more : List Step} (h : t.AllowsAll (steps ++ more)) :
    t.AllowsAll steps :=
  fun done next rest heq => h done next (rest ++ more) (by rw [heq, List.append_assoc,
    List.cons_append])

/-! ### What steps keep -/

/-- **A tableau with priced costs that is reached from a first one.** -/
structure Running (first t : Tableau ℚ) : Prop extends Reached first t where
  /-- The costs that were loaded last are priced. -/
  priced : ∃ c, t.Priced c

/-- The basis holds no column twice. -/
theorem BasicForm.nodup_basis (h : t.BasicForm) : t.basis.Nodup := by
  rw [List.Nodup, List.pairwise_iff_getElem]
  intro i k hi hk hik heq
  rw [← List.getD_eq_getElem t.basis 0 hi, ← List.getD_eq_getElem t.basis 0 hk] at heq
  rw [h.basis_length] at hi hk
  exact hik.ne (h.basicColumn_inj hi hk heq)

/-- A column with another reduced cost than zero is not basic. -/
theorem Running.notMem_basis (h : Running first t) {col : ℕ} (hcost : t.reducedCost col ≠ 0) :
    col ∉ t.basis := by
  intro hmem
  obtain ⟨c, hpriced⟩ := h.priced
  obtain ⟨i, hi, rfl⟩ := h.basicForm.mem_basisSet.mp (List.mem_toFinset.mpr hmem)
  exact hcost (hpriced.basic_zero i hi)

/-- A column with a nonzero cell in a row in which another column is basic is not basic. -/
theorem BasicForm.notMem_basis (h : t.BasicForm) {row col : ℕ} (hrow : row < t.height)
    (hcell : t.cell row col ≠ 0) (hother : t.basicColumn row ≠ col) : col ∉ t.basis := by
  intro hmem
  obtain ⟨i, hi, rfl⟩ := h.mem_basisSet.mp (List.mem_toFinset.mpr hmem)
  refine hcell ((h.unit row hrow i hi).trans (if_neg ?_))
  rintro rfl
  exact hother rfl

/-- Loading costs prices them. -/
theorem Reached.running_price (h : Reached first t) {costs : List ℚ}
    (hcosts : costs.length ≤ t.rhsColumn) : Running first (t.price costs) :=
  ⟨h.price hcosts, _, h.basicForm.priced_price hcosts⟩

/-- **A step that is allowed keeps the basic form, the solutions and the priced costs.** -/
theorem Running.perform (h : Running first t) (hstep : t.Allows step) :
    Running first (t.perform step) := by
  cases hstep with
  | price hcosts => exact h.toReached.running_price hcosts
  | pivot hrow hcol hcell =>
    obtain ⟨c, hpriced⟩ := h.priced
    exact ⟨h.toReached.pivot hrow hcol hcell, c, hpriced.pivot h.basicForm hrow hcell⟩

/-- **Steps that are allowed keep them.** -/
theorem Running.performAll (h : Running first t) (hsteps : t.AllowsAll steps) :
    Running first (t.performAll steps) := by
  induction steps generalizing t with
  | nil => exact h
  | cons step steps ih => exact ih (h.perform (hsteps [] step steps rfl)) hsteps.tail

/-! ### The pivots of a phase -/

/-- The pivots of a phase, of which there are at most `left`. -/
def phaseSteps (tolerance : ℚ) (allowed left : ℕ) (t : Tableau ℚ) : List Step :=
  match t.entering? tolerance allowed with
  | none => []
  | some col =>
    match t.leaving? tolerance col with
    | none => []
    | some row =>
      match left with
      | 0 => []
      | left + 1 => .pivot row col :: phaseSteps tolerance allowed left (t.pivot row col)

/-- A phase wants another pivot: it has an entering column and a leaving row. -/
def WantsPivot (tolerance : ℚ) (allowed : ℕ) (t : Tableau ℚ) : Prop :=
  ∃ col row, t.entering? tolerance allowed = some col ∧ t.leaving? tolerance col = some row

/-- How a phase ends when the given tableau is the one after its pivots. -/
def PhaseEnd.At (tolerance : ℚ) (allowed : ℕ) (last : Tableau ℚ) : PhaseEnd ℚ → Prop
  | .optimal t _ => t = last ∧ t.entering? tolerance allowed = none
  | .unbounded t _ => t = last ∧ ∃ col, t.entering? tolerance allowed = some col
      ∧ t.leaving? tolerance col = none
  | .exhausted => last.WantsPivot tolerance allowed

/-- **A phase ends at the tableau after its pivots.** -/
theorem at_optimize (tolerance : ℚ) (allowed left : ℕ) (t : Tableau ℚ) :
    (optimize tolerance allowed left t).At tolerance allowed
      (t.performAll (phaseSteps tolerance allowed left t)) := by
  induction left generalizing t with
  | zero =>
    rw [optimize, phaseSteps]
    cases hcol : t.entering? tolerance allowed with
    | none => exact ⟨rfl, hcol⟩
    | some col =>
      dsimp only
      cases hrow : t.leaving? tolerance col with
      | none => exact ⟨rfl, col, hcol, hrow⟩
      | some row => exact ⟨col, row, hcol, hrow⟩
  | succ left ih =>
    rw [optimize, phaseSteps]
    cases hcol : t.entering? tolerance allowed with
    | none => exact ⟨rfl, hcol⟩
    | some col =>
      dsimp only
      cases hrow : t.leaving? tolerance col with
      | none => exact ⟨rfl, col, hcol, hrow⟩
      | some row => exact ih (t.pivot row col)

/-- A pivot that a phase chooses is allowed: the reduced cost of its column is not zero, and its cell is
above the tolerance. -/
theorem Running.allows_chosen (h : Running first t) {tolerance : ℚ} (htol : 0 ≤ tolerance)
    {allowed row col : ℕ} (hallowed : allowed ≤ first.rhsColumn)
    (hcol : t.entering? tolerance allowed = some col)
    (hrow : t.leaving? tolerance col = some row) : t.Allows (.pivot row col) := by
  have hlen : allowed ≤ t.cost.length := by
    rw [h.basicForm.cost_length, width_eq, h.rhsColumn_eq]
    omega
  obtain ⟨hlt, hneg, -⟩ := entering?_eq_some hlen hcol
  obtain ⟨hheight, hcell⟩ := leaving?_eq_some hrow
  refine .pivot hheight ?_ (htol.trans_lt hcell).ne' (h.notMem_basis ?_)
  · rw [h.rhsColumn_eq]
    omega
  · exact (hneg.trans_le (neg_nonpos.mpr htol)).ne

/-- **All pivots of a phase are allowed.** -/
theorem Running.allowsAll_phaseSteps (h : Running first t) {tolerance : ℚ} (htol : 0 ≤ tolerance)
    {allowed : ℕ} (hallowed : allowed ≤ first.rhsColumn) (left : ℕ) :
    t.AllowsAll (phaseSteps tolerance allowed left t) := by
  induction left generalizing t with
  | zero =>
    unfold phaseSteps
    split
    · exact allowsAll_nil t
    · split <;> exact allowsAll_nil t
  | succ left ih =>
    unfold phaseSteps
    split
    · exact allowsAll_nil t
    · rename_i col hcol
      split
      · exact allowsAll_nil t
      · rename_i row hrow
        have hstep := h.allows_chosen htol hallowed hcol hrow
        exact .cons hstep (ih (h.perform hstep))

/-! ### The pivots that drive out artificial columns -/

/-- The pivot that drives an artificial column out of a row, if one does. -/
def driveStep (tolerance : ℚ) (t : Tableau ℚ) (i : ℕ) : List Step :=
  if t.basis.getD i 0 < t.structural then []
  else
    match ((t.rows.getD i []).take t.structural).findIdx? fun v =>
        decide (tolerance < Scalar.abs v) with
    | some j => [.pivot i j]
    | none => []

/-- The pivots that drive artificial columns out of rows. -/
def driveSteps (tolerance : ℚ) : List ℕ → Tableau ℚ → List Step
  | [], _ => []
  | i :: rows, t => t.driveStep tolerance i ++ driveSteps tolerance rows (t.driveOut tolerance i)

theorem performAll_driveStep (tolerance : ℚ) (t : Tableau ℚ) (i : ℕ) :
    t.performAll (t.driveStep tolerance i) = t.driveOut tolerance i := by
  unfold driveStep driveOut
  split
  · rfl
  · cases ((t.rows.getD i []).take t.structural).findIdx? fun v =>
        decide (tolerance < Scalar.abs v) with
    | some j => rfl
    | none => rfl

/-- **Driving out ends at the tableau after its pivots.** -/
theorem performAll_driveSteps (tolerance : ℚ) (rows : List ℕ) (t : Tableau ℚ) :
    t.performAll (driveSteps tolerance rows t) = rows.foldl (driveOut tolerance) t := by
  induction rows generalizing t with
  | nil => rfl
  | cons i rows ih =>
    rw [driveSteps, performAll_append, performAll_driveStep, ih]
    rfl

/-- A pivot that drives out a column is allowed: the row has a nonzero structural cell, and its basic
column is artificial. -/
theorem Running.allowsAll_driveStep (h : Running first t) {tolerance : ℚ} (htol : 0 ≤ tolerance)
    {i : ℕ} (hi : i < t.height) : t.AllowsAll (t.driveStep tolerance i) := by
  rw [driveStep]
  split
  · exact allowsAll_nil t
  · rename_i hart
    split
    · rename_i j hj
      obtain ⟨hlt, habs, -⟩ := List.findIdx?_eq_some_iff_getElem.mp hj
      rw [List.length_take, lt_min_iff] at hlt
      obtain ⟨hstruct, hlen⟩ := hlt
      rw [List.getElem_take, Scalar.abs_rat, decide_eq_true_eq] at habs
      have hcell : t.cell i j ≠ 0 := by
        rw [cell, List.getD_eq_getElem _ _ hlen]
        exact abs_pos.mp (htol.trans_lt habs)
      have hother : t.basicColumn i ≠ j := fun heq => hart (heq.trans_lt hstruct)
      have hrhs : j < t.rhsColumn := by
        rw [Tableau.rhsColumn_eq]
        omega
      exact .cons (.pivot hi hrhs hcell (h.basicForm.notMem_basis hi hcell hother))
        (allowsAll_nil _)
    · exact allowsAll_nil t

/-- **All pivots that drive out columns are allowed.** -/
theorem Running.allowsAll_driveSteps (h : Running first t) {tolerance : ℚ} (htol : 0 ≤ tolerance)
    {rows : List ℕ} (hrows : ∀ i ∈ rows, i < first.height) :
    t.AllowsAll (driveSteps tolerance rows t) := by
  induction rows generalizing t with
  | nil => exact allowsAll_nil t
  | cons i rows ih =>
    rw [List.forall_mem_cons] at hrows
    have hstep := h.allowsAll_driveStep htol (h.height_eq ▸ hrows.1)
    have hnext := h.performAll hstep
    rw [performAll_driveStep] at hnext
    refine hstep.append ?_
    rw [performAll_driveStep]
    exact ih hnext hrows.2

end Tableau

/-! ### Runs -/

namespace Simplex

open Tableau

variable {lp : LinearProgram ℚ} {options : SimplexOptions ℚ}

/-- The steps after phase one ended with a tableau: artificial columns are driven out, the costs of the
program are loaded, and phase two pivots. -/
def phaseTwoSteps (options : SimplexOptions ℚ) (lp : LinearProgram ℚ) (left : ℕ) (t : Tableau ℚ) :
    List Step :=
  let rows := List.range t.rows.length
  let start := (rows.foldl (driveOut options.tolerance) t).price (structuralCosts lp)
  driveSteps options.tolerance rows t
    ++ .price (structuralCosts lp) :: phaseSteps options.tolerance t.structural left start

/-- The steps after phase one, if it came to its end above no positive costs. -/
def laterSteps (options : SimplexOptions ℚ) (lp : LinearProgram ℚ) : PhaseEnd ℚ → List Step
  | .optimal t left | .unbounded t left =>
    if t.isInfeasible options.tolerance then [] else phaseTwoSteps options lp left t
  | .exhausted => []

/-- **The steps of a run**, from the first tableau on. -/
def steps (options : SimplexOptions ℚ) (lp : LinearProgram ℚ) : List Step :=
  let start := phaseOneStart lp
  let allowed := (ofProgram lp).rhsColumn
  .price (ofProgram lp).artificialCosts
    :: (phaseSteps options.tolerance allowed options.maxIterations start
      ++ laterSteps options lp (start.optimize options.tolerance allowed options.maxIterations))

/-- **An answer that is read off the last tableau** of a run. -/
def ReadOff (options : SimplexOptions ℚ) (lp : LinearProgram ℚ) (last : Tableau ℚ) :
    Except SolverError (Outcome ℚ) → Prop
  | .ok (.optimal x v) => last.entering? options.tolerance last.structural = none
      ∧ x = last.point lp.columnCount ∧ v = lp.objective x
  | .ok .unbounded => ∃ col, last.entering? options.tolerance last.structural = some col
      ∧ last.leaving? options.tolerance col = none
  | .ok .infeasible => last.isInfeasible options.tolerance = true
  | .error e => e = .iterationLimit options.maxIterations
      ∧ ∃ allowed, last.WantsPivot options.tolerance allowed

/-- The answer of phase two is read off the last tableau. -/
theorem readOff_phaseTwo (options : SimplexOptions ℚ) (lp : LinearProgram ℚ) (left : ℕ)
    (t : Tableau ℚ) : ReadOff options lp (t.performAll (phaseTwoSteps options lp left t))
      (phaseTwo options lp left t) := by
  set start := ((List.range t.rows.length).foldl (driveOut options.tolerance) t).price
    (structuralCosts lp) with hstart
  set last := t.performAll (phaseTwoSteps options lp left t) with hlast
  -- the steps drive artificial columns out, price the objective and run the phase
  have hsteps : last
      = start.performAll (phaseSteps options.tolerance t.structural left start) := by
    rw [hlast, phaseTwoSteps, performAll_append, performAll_driveSteps, performAll_cons]
    rfl
  have hstruct : last.structural = t.structural := structural_performAll t _
  have hend := at_optimize options.tolerance t.structural left start
  rw [← hsteps] at hend
  rw [phaseTwo, ← hstart]
  revert hend
  cases start.optimize options.tolerance t.structural left with
  | optimal s rest =>
    rintro ⟨rfl, hnone⟩
    exact ⟨by rw [hstruct]; exact hnone, rfl, rfl⟩
  | unbounded s rest =>
    rintro ⟨rfl, hgrows⟩
    change ∃ col, _
    rw [hstruct]
    exact hgrows
  | exhausted => exact fun hwants => ⟨rfl, _, hwants⟩

/-- **The answer of a run is read off the tableau after its steps.** -/
theorem readOff_run (options : SimplexOptions ℚ) (lp : LinearProgram ℚ) :
    ReadOff options lp ((ofProgram lp).performAll (steps options lp)) (run options lp) := by
  have hend := at_optimize options.tolerance (ofProgram lp).rhsColumn options.maxIterations
    (phaseOneStart lp)
  -- after phase one the tableau is judged in the same way, however the phase ended
  have hjudged : ∀ t left, ReadOff options lp
      (t.performAll (if t.isInfeasible options.tolerance then [] else
        phaseTwoSteps options lp left t))
      (if t.isInfeasible options.tolerance then .ok .infeasible else
        phaseTwo options lp left t) := by
    intro t left
    split
    · rename_i hinfeasible
      exact hinfeasible
    · exact readOff_phaseTwo options lp left t
  rw [phaseOneStart] at hend
  rw [steps, performAll_cons, performAll_append, run]
  simp only [phaseOneStart, perform]
  revert hend
  cases ((ofProgram lp).price (ofProgram lp).artificialCosts).optimize options.tolerance
      (ofProgram lp).rhsColumn options.maxIterations with
  | optimal t left =>
    rintro ⟨rfl, -⟩
    exact hjudged _ left
  | unbounded t left =>
    rintro ⟨rfl, -⟩
    exact hjudged _ left
  | exhausted => exact fun hwants => ⟨rfl, _, hwants⟩

/-- The steps after phase one are allowed. -/
theorem allowsAll_phaseTwoSteps {t : Tableau ℚ} (h : Running (ofProgram lp) t)
    (htol : 0 ≤ options.tolerance) (left : ℕ) :
    t.AllowsAll (phaseTwoSteps options lp left t) := by
  have hdrive := h.allowsAll_driveSteps htol fun i (hi : i ∈ List.range t.rows.length) =>
    h.height_eq ▸ List.mem_range.mp hi
  have hdriven := h.performAll hdrive
  have hcosts : (structuralCosts lp).length
      ≤ (t.performAll (driveSteps options.tolerance (List.range t.rows.length) t)).rhsColumn := by
    rw [hdriven.rhsColumn_eq, length_structuralCosts, Tableau.rhsColumn_eq]
    omega
  have hstart := hdriven.perform (.price hcosts)
  refine hdrive.append (.cons (.price hcosts) ?_)
  rw [performAll_driveSteps] at hstart ⊢
  exact hstart.allowsAll_phaseSteps htol (structural_le_rhsColumn h.toReached) left

/-- **All steps of a run are allowed**, with any tolerance that is not negative. -/
theorem allowsAll_steps (lp : LinearProgram ℚ) (htol : 0 ≤ options.tolerance) :
    (ofProgram lp).AllowsAll (steps options lp) := by
  have hcosts := (length_artificialCosts (ofProgram lp)).le
  have hstart : Running (ofProgram lp) (phaseOneStart lp) :=
    (basicForm_ofProgram lp).reached.running_price hcosts
  have hphase := hstart.allowsAll_phaseSteps htol le_rfl options.maxIterations
  have hend := at_optimize options.tolerance (ofProgram lp).rhsColumn options.maxIterations
    (phaseOneStart lp)
  -- phase two starts from any tableau that the phase before it left
  have hjudged : ∀ t left, Running (ofProgram lp) t → t.AllowsAll
      (if t.isInfeasible options.tolerance then [] else phaseTwoSteps options lp left t) := by
    intro t left ht
    split
    · exact allowsAll_nil t
    · exact allowsAll_phaseTwoSteps ht htol left
  refine .cons (.price hcosts) (hphase.append ?_)
  revert hend
  cases (phaseOneStart lp).optimize options.tolerance (ofProgram lp).rhsColumn
      options.maxIterations with
  | optimal t left =>
    rintro ⟨rfl, -⟩
    exact hjudged _ left (hstart.performAll hphase)
  | unbounded t left =>
    rintro ⟨rfl, -⟩
    exact hjudged _ left (hstart.performAll hphase)
  | exhausted => exact fun _ => allowsAll_nil _

/-- After the first step of a run the costs are priced. -/
theorem running_of_steps (htol : 0 ≤ options.tolerance) {done rest : List Step} {step : Step}
    (h : steps options lp = step :: done ++ rest) :
    Running (ofProgram lp) ((ofProgram lp).performAll (step :: done)) := by
  have hallows := allowsAll_steps lp htol
  rw [h] at hallows
  obtain ⟨rfl, -⟩ := List.cons.inj h
  exact ((basicForm_ofProgram lp).reached.running_price (length_artificialCosts _).le).performAll
    hallows.of_append.tail

/-- **The tableau stays a tableau**: the answer to a program that passes the checks is read off the tableau
after the steps of its run. With a tolerance that is not negative, after any number of these steps the
tableau is in basic form with a basis of different columns, has the solutions of the first one, and
charges nothing for basic columns once costs were loaded; and every step is one that the tableau before it
allows. -/
theorem solve_keeps_basicForm (hvalid : lp.validate = .ok ()) (htol : 0 ≤ options.tolerance) :
    ReadOff options lp ((ofProgram lp).performAll (steps options lp)) (solve options lp)
    ∧ (ofProgram lp).AllowsAll (steps options lp)
    ∧ ∀ done rest, steps options lp = done ++ rest →
      Reached (ofProgram lp) ((ofProgram lp).performAll done)
      ∧ ((ofProgram lp).performAll done).basis.Nodup
      ∧ (done ≠ [] → ∀ i < lp.rowCount, ((ofProgram lp).performAll done).reducedCost
          (((ofProgram lp).performAll done).basicColumn i) = 0) := by
  refine ⟨?_, allowsAll_steps lp htol, fun done rest h => ?_⟩
  · rw [solve, hvalid]
    exact readOff_run options lp
  · cases done with
    | nil =>
      have hfirst := basicForm_ofProgram lp
      exact ⟨hfirst.reached, hfirst.nodup_basis, fun hne => absurd rfl hne⟩
    | cons step done =>
      have hrunning := running_of_steps htol h
      refine ⟨hrunning.toReached, hrunning.basicForm.nodup_basis, fun _ i hi => ?_⟩
      obtain ⟨c, hpriced⟩ := hrunning.priced
      exact hpriced.basic_zero i (by rw [hrunning.height_eq, height_ofProgram]; exact hi)

/-- Two bounds on one variable, and two equations that fix the other with opposite signs. -/
def opposed : LinearProgram ℚ where
  c := [1, 1]
  g := .ofTriplets 2 2 [((0, 1), -2), ((1, 1), 1)]
  h := [4, 3]
  a := .ofTriplets 2 2 [((0, 0), 1), ((1, 0), -1)]
  b := [0, 0]

/-- The equations cancel in the costs of phase one, which leaves their artificial columns basic. One of
them is driven out, and the other stays basic through the pivots of phase two. -/
theorem solve_keeps_basicForm_opposed :
    opposed.validate = .ok () ∧ (0 : ℚ) ≤ 1 / 1000
      ∧ steps ⟨10, 1 / 1000⟩ opposed
        = [.price [0, 0, 0, 0, 0, 0, 1, 1, 1, 1], .pivot 0 3, .pivot 0 4, .pivot 1 1, .pivot 2 0,
          .price [1, 1, -1, -1, 0, 0], .pivot 1 5, .pivot 0 3]
      ∧ (ofProgram opposed).AllowsAll (steps ⟨10, 1 / 1000⟩ opposed)
      ∧ ∀ done rest, steps ⟨10, 1 / 1000⟩ opposed = done ++ rest →
        Reached (ofProgram opposed) ((ofProgram opposed).performAll done) := by
  have hvalid : opposed.validate = .ok () := by decide +kernel
  have htol : (0 : ℚ) ≤ 1 / 1000 := by norm_num
  obtain ⟨-, hallows, hkeeps⟩ :=
    @solve_keeps_basicForm opposed ⟨10, 1 / 1000⟩ hvalid htol
  exact ⟨hvalid, htol, by decide +kernel, hallows, fun done rest h => (hkeeps done rest h).1⟩

end Simplex

end RelationalLP
