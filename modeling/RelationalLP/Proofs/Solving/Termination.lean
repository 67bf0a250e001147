import Mathlib
import RelationalLP.Proofs.Solving.BlandRule

/-! # The simplex method terminates

A phase goes through tableaux with pairwise different bases, of which there are finitely many, so the
number of its pivots is bounded by the size of the program alone. With a limit on the pivots above that
bound both phases come to their ends, and every program that passes the checks gets an answer. -/

namespace RelationalLP

namespace Tableau

/-! ### The tableaux of a phase -/

/-- The tableaux that a phase goes through, the given one first; each pivot counts against `left`. -/
def visited (tolerance : ℚ) (allowed left : ℕ) (t : Tableau ℚ) : List (Tableau ℚ) :=
  t :: match t.entering? tolerance allowed with
    | none => []
    | some col =>
      match t.leaving? tolerance col with
      | none => []
      | some row =>
        match left with
        | 0 => []
        | left + 1 => visited tolerance allowed left (t.pivot row col)

/-- The last tableau of a phase that comes to its end. -/
def PhaseEnd.tableau? : PhaseEnd ℚ → Option (Tableau ℚ)
  | .optimal t _ | .unbounded t _ => some t
  | .exhausted => none

/-- **How a phase ends after its tableaux**: at the last of them with the pivots left that it did not
make, or for want of pivots after it made all of them. -/
def PhaseEnd.After (trace : List (Tableau ℚ)) (left : ℕ) : PhaseEnd ℚ → Prop
  | .optimal t rest | .unbounded t rest => trace.getLast? = some t ∧ trace.length + rest = left + 1
  | .exhausted => trace.length = left + 1

variable {first t : Tableau ℚ} {allowed left : ℕ} {c : ℕ → ℚ}

/-- The given tableau comes first. -/
theorem exists_visited_eq_cons (tolerance : ℚ) (allowed left : ℕ) (t : Tableau ℚ) :
    ∃ rest, visited tolerance allowed left t = t :: rest := by
  unfold visited
  exact ⟨_, rfl⟩

/-- A pivot before a phase is one of the tableaux more and one of the pivots less. -/
theorem PhaseEnd.After.cons {s : Tableau ℚ} {trace : List (Tableau ℚ)} {e : PhaseEnd ℚ}
    (h : e.After (s :: trace) left) : e.After (t :: s :: trace) (left + 1) := by
  cases e with
  | optimal _ rest =>
    refine ⟨h.1, ?_⟩
    rw [List.length_cons, Nat.add_right_comm, h.2]
  | unbounded _ rest =>
    refine ⟨h.1, ?_⟩
    rw [List.length_cons, Nat.add_right_comm, h.2]
  | exhausted => exact congrArg Nat.succ h

/-- **A phase ends after the tableaux it goes through.** -/
theorem after_optimize (tolerance : ℚ) (allowed left : ℕ) (t : Tableau ℚ) :
    (optimize tolerance allowed left t).After (visited tolerance allowed left t) left := by
  -- the tableau at the end of a phase is counted, too
  induction left generalizing t with
  | zero =>
    rw [optimize, visited]
    cases t.entering? tolerance allowed with
    | none => exact ⟨rfl, rfl⟩
    | some col =>
      dsimp only
      cases t.leaving? tolerance col with
      | none => exact ⟨rfl, rfl⟩
      | some row => exact rfl
  | succ left ih =>
    rw [optimize, visited]
    cases t.entering? tolerance allowed with
    | none => exact ⟨rfl, Nat.add_comm 1 _⟩
    | some col =>
      dsimp only
      cases t.leaving? tolerance col with
      | none => exact ⟨rfl, Nat.add_comm 1 _⟩
      | some row =>
        have hrest := ih (t.pivot row col)
        obtain ⟨rest, hcons⟩ := exists_visited_eq_cons tolerance allowed left (t.pivot row col)
        rw [hcons] at hrest
        dsimp only
        rw [hcons]
        exact hrest.cons

/-- Each tableau of a phase follows the one before it. -/
theorem isChain_visited (allowed left : ℕ) (t : Tableau ℚ) :
    (visited 0 allowed left t).IsChain (Follows allowed) := by
  induction left generalizing t with
  | zero =>
    unfold visited
    split
    · exact .singleton _
    · split <;> exact .singleton _
  | succ left ih =>
    unfold visited
    split
    · exact .singleton _
    · rename_i col hcol
      split
      · exact .singleton _
      · rename_i row hrow
        have hrest := ih (t.pivot row col)
        obtain ⟨rest, hcons⟩ := exists_visited_eq_cons 0 allowed left (t.pivot row col)
        simp only [hcons] at hrest ⊢
        exact .cons_cons ⟨row, col, ⟨hcol, hrow⟩, rfl⟩ hrest

/-! ### No basis twice -/

/-- Every tableau that a phase goes through is one of the phase. -/
theorem InPhase.of_mem_visited (h : InPhase first c t) (hallowed : allowed ≤ first.rhsColumn)
    {s : Tableau ℚ} (hs : s ∈ visited 0 allowed left t) : InPhase first c s := by
  refine (isChain_visited allowed left t).induction (InPhase first c) _
    (fun _ _ hstep hphase => hphase.follows hallowed hstep) (fun hne => ?_) s hs
  obtain ⟨rest, hcons⟩ := exists_visited_eq_cons 0 allowed left t
  simp only [hcons, List.head_cons]
  exact h

/-- The tableau at the end of a phase is one of the phase. -/
theorem InPhase.of_tableau?_optimize (h : InPhase first c t) (hallowed : allowed ≤ first.rhsColumn)
    {s : Tableau ℚ} (hs : (optimize 0 allowed left t).tableau? = some s) : InPhase first c s := by
  have hlast : (visited 0 allowed left t).getLast? = some s := by
    have hafter := after_optimize 0 allowed left t
    revert hs hafter
    cases optimize 0 allowed left t with
    | optimal e rest => exact fun hs hafter => hafter.1.trans hs
    | unbounded e rest => exact fun hs hafter => hafter.1.trans hs
    | exhausted => exact fun hs => nomatch hs
  exact h.of_mem_visited hallowed (List.mem_of_getLast? hlast)

/-- No basis occurs twice in a phase from this tableau on, however many pivots it makes. -/
def NeverRepeats (allowed : ℕ) (t : Tableau ℚ) : Prop :=
  ∀ left, ((visited 0 allowed left t).map basisSet).Nodup

/-- **A phase goes through no basis twice.** -/
theorem InPhase.neverRepeats (h : InPhase first c t) (hallowed : allowed ≤ first.rhsColumn) :
    t.NeverRepeats allowed := by
  intro left
  have hchain := (isChain_visited allowed left t).getElem
  have hphase : ∀ s ∈ visited 0 allowed left t, InPhase first c s :=
    fun s hs => h.of_mem_visited hallowed hs
  rw [List.Nodup, List.pairwise_map, List.pairwise_iff_getElem]
  intro i j hi hj hij
  -- the tableaux from place `i` on, up to place `j`
  set s : ℕ → Tableau ℚ := fun n => (visited 0 allowed left t).getD (i + n) t with hs
  have hget : ∀ n, (hn : i + n < (visited 0 allowed left t).length) →
      s n = (visited 0 allowed left t)[i + n] := fun n hn => List.getD_eq_getElem _ _ hn
  have hstart : InPhase first c (s 0) := by
    rw [hget 0 hi]
    exact hphase _ (List.getElem_mem _)
  have hne := hstart.basisSet_ne hallowed (k := j - i) (fun n hn => by
    rw [hget n (by omega), hget (n + 1) (by omega)]
    exact hchain (i + n) (by omega)) (by omega)
  have hend : i + (j - i) = j := by omega
  simp only [hs, hend] at hne
  rw [List.getD_eq_getElem _ _ hj, Nat.add_zero, List.getD_eq_getElem _ _ hi] at hne
  exact hne.symm

/-- **A phase goes through no more tableaux than there are sets of columns.** -/
theorem InPhase.length_visited_le (h : InPhase first c t) (hallowed : allowed ≤ first.rhsColumn)
    (left : ℕ) : (visited 0 allowed left t).length ≤ 2 ^ first.rhsColumn := by
  have hsubset : ((visited 0 allowed left t).map basisSet).toFinset
      ⊆ (Finset.range first.rhsColumn).powerset := by
    intro basis hbasis
    rw [List.mem_toFinset, List.mem_map] at hbasis
    obtain ⟨s, hs, rfl⟩ := hbasis
    have hphase := h.of_mem_visited hallowed hs
    rw [Finset.mem_powerset, ← hphase.rhsColumn_eq]
    exact hphase.basicForm.basisSet_subset
  calc (visited 0 allowed left t).length
      = ((visited 0 allowed left t).map basisSet).toFinset.card := by
        rw [List.toFinset_card_of_nodup (h.neverRepeats hallowed left), List.length_map]
    _ ≤ (Finset.range first.rhsColumn).powerset.card := Finset.card_le_card hsubset
    _ = 2 ^ first.rhsColumn := by rw [Finset.card_powerset, Finset.card_range]

/-- **A phase with enough pivots comes to its end**, with the pivots left that are not needed. -/
theorem InPhase.optimize_ends (h : InPhase first c t) (hallowed : allowed ≤ first.rhsColumn) {spare : ℕ}
    (hleft : 2 ^ first.rhsColumn + spare ≤ left) : ∃ s rest, spare ≤ rest
      ∧ (optimize 0 allowed left t = .optimal s rest ∨ optimize 0 allowed left t = .unbounded s rest) := by
  have hlen := h.length_visited_le hallowed left
  have hafter := after_optimize 0 allowed left t
  revert hafter
  cases optimize 0 allowed left t with
  | optimal s rest => exact fun hafter => ⟨s, rest, by have := hafter.2; omega, .inl rfl⟩
  | unbounded s rest => exact fun hafter => ⟨s, rest, by have := hafter.2; omega, .inr rfl⟩
  | exhausted =>
    intro hafter
    have hlong : (visited 0 allowed left t).length = left + 1 := hafter
    omega

end Tableau

/-! ### Both phases -/

namespace Simplex

open Tableau

variable {lp : LinearProgram ℚ} {options : SimplexOptions ℚ}

/-- The tableau that phase one starts from. -/
def phaseOneStart (lp : LinearProgram ℚ) : Tableau ℚ :=
  (ofProgram lp).price (ofProgram lp).artificialCosts

/-- The tableau that phase two starts from, after phase one ended with the given one. -/
def phaseTwoStart (lp : LinearProgram ℚ) (t : Tableau ℚ) : Tableau ℚ :=
  ((List.range t.rows.length).foldl (driveOut 0) t).price (structuralCosts lp)

/-- Phase one starts within its phase. -/
theorem inPhase_phaseOneStart (lp : LinearProgram ℚ) :
    InPhase (ofProgram lp) (ofProgram lp).phaseOneCosts (phaseOneStart lp) := inPhase_ofProgram lp

/-- Phase two starts within its phase, after phase one ended at zero. -/
theorem inPhase_phaseTwoStart {t : Tableau ℚ}
    (h : InPhase (ofProgram lp) (ofProgram lp).phaseOneCosts t)
    (hfeasible : ¬ t.isInfeasible 0 = true) :
    InPhase (ofProgram lp) (phaseTwoCosts lp) (phaseTwoStart lp t) :=
  (inPhaseTwo_of_drained (h.drained hfeasible)).toInPhase

/-- Structural columns may enter. -/
theorem structural_le_rhsColumn {t : Tableau ℚ} (h : Reached (ofProgram lp) t) :
    t.structural ≤ (ofProgram lp).rhsColumn := by
  rw [h.structural_eq, Tableau.rhsColumn_eq]
  exact Nat.le_add_right _ _

/-- **Phase two answers**, given enough pivots. -/
theorem exists_phaseTwo_eq_ok (htol : options.tolerance = 0) {t : Tableau ℚ}
    (h : InPhase (ofProgram lp) (ofProgram lp).phaseOneCosts t)
    (hfeasible : ¬ t.isInfeasible 0 = true) {left : ℕ}
    (hleft : 2 ^ (ofProgram lp).rhsColumn ≤ left) : ∃ o, phaseTwo options lp left t = .ok o := by
  obtain ⟨s, rest, -, hend⟩ := (inPhase_phaseTwoStart h hfeasible).optimize_ends
    (structural_le_rhsColumn h.toReached) ((Nat.add_zero _).le.trans hleft)
  rw [phaseTwoStart] at hend
  rw [phaseTwo, htol]
  rcases hend with hend | hend <;> simp only [hend] <;> exact ⟨_, rfl⟩

/-- **Both phases answer**, given enough pivots. -/
theorem exists_run_eq_ok (htol : options.tolerance = 0)
    (hbound : 2 ^ (ofProgram lp).rhsColumn + 2 ^ (ofProgram lp).rhsColumn ≤ options.maxIterations) :
    ∃ o, run options lp = .ok o := by
  obtain ⟨s, rest, hrest, hend⟩ := (inPhase_phaseOneStart lp).optimize_ends le_rfl hbound
  have hlast : (optimize 0 (ofProgram lp).rhsColumn options.maxIterations
      (phaseOneStart lp)).tableau? = some s := by
    rcases hend with hend | hend <;> rw [hend] <;> rfl
  have hs : InPhase (ofProgram lp) (ofProgram lp).phaseOneCosts s :=
    (inPhase_phaseOneStart lp).of_tableau?_optimize le_rfl hlast
  have hanswer : ∃ o, (if s.isInfeasible 0 then .ok .infeasible else phaseTwo options lp rest s)
      = .ok o := by
    split
    · exact ⟨_, rfl⟩
    · rename_i hfeasible
      exact exists_phaseTwo_eq_ok htol hs hfeasible hrest
  rw [phaseOneStart] at hend
  rw [run, htol]
  rcases hend with hend | hend <;> simp only [hend] <;> exact hanswer

/-- **A program has an optimum** where a point is feasible and the objective of the feasible points has a
lower bound. -/
theorem exists_isOptimum (hlp : lp.WellFormed) (hfeasible : ∃ x, lp.Feasible x) {bound : ℚ}
    (hbound : ∀ x, lp.Feasible x → bound ≤ lp.objective x) : ∃ v, lp.IsOptimum v := by
  obtain ⟨o, ho⟩ : ∃ o, run (⟨_, 0⟩ : SimplexOptions ℚ) lp = .ok o := exists_run_eq_ok rfl le_rfl
  have hcorrect := correct_of_run rfl hlp ho
  cases o with
  | optimal x v => exact ⟨_, ⟨x, hcorrect.1, rfl⟩, hcorrect.2.2⟩
  | infeasible =>
    obtain ⟨x, hx⟩ := hfeasible
    exact absurd hx (hcorrect x)
  | unbounded =>
    obtain ⟨x, hx, hbelow⟩ := hcorrect.2 bound
    exact absurd (hbound x hx) hbelow.not_ge

/-- **The simplex method terminates**: with tolerance zero there is a number of pivots within which it
answers a program that passes the checks, since neither phase comes back to a basis. -/
theorem solve_terminates (hvalid : lp.validate = .ok ()) :
    (∃ bound, ∀ options : SimplexOptions ℚ, options.tolerance = 0 → bound ≤ options.maxIterations →
      ∃ o, solve options lp = .ok o)
    ∧ (phaseOneStart lp).NeverRepeats (ofProgram lp).rhsColumn
    ∧ ∀ limit t, (optimize 0 (ofProgram lp).rhsColumn limit (phaseOneStart lp)).tableau? = some t →
      t.isInfeasible 0 = false → (phaseTwoStart lp t).NeverRepeats t.structural := by
  refine ⟨⟨2 ^ (ofProgram lp).rhsColumn + 2 ^ (ofProgram lp).rhsColumn,
    fun options htol hbound => ?_⟩, ?_, fun limit t ht hfeasible => ?_⟩
  · rw [solve, hvalid]
    exact exists_run_eq_ok htol hbound
  · exact (inPhase_phaseOneStart lp).neverRepeats le_rfl
  · have hphase := (inPhase_phaseOneStart lp).of_tableau?_optimize le_rfl ht
    have hstart := inPhase_phaseTwoStart hphase (by rw [hfeasible]; exact Bool.false_ne_true)
    exact hstart.neverRepeats (structural_le_rhsColumn hphase.toReached)

/-- A program with an equation that stands twice and a corner in which all inequalities meet. -/
def degenerate : LinearProgram ℚ where
  c := [-3/4, 20, -1/2, 6]
  g := .ofTriplets 3 4 [((0, 0), 1/4), ((0, 1), -8), ((0, 2), -1), ((0, 3), 9),
    ((1, 0), 1/2), ((1, 1), -12), ((1, 2), -1/2), ((1, 3), 3), ((2, 2), 1)]
  h := [0, 0, 1]
  a := .ofTriplets 2 4 [((0, 0), 1), ((0, 1), -1), ((1, 0), 2), ((1, 1), -2)]
  b := [0, 0]

/-- The degenerate program is answered, and its phases never come back to a basis. -/
theorem solve_terminates_degenerate : degenerate.validate = .ok ()
    ∧ (∃ bound, ∀ options : SimplexOptions ℚ, options.tolerance = 0 → bound ≤ options.maxIterations →
      ∃ o, solve options degenerate = .ok o)
    ∧ (phaseOneStart degenerate).NeverRepeats (ofProgram degenerate).rhsColumn := by
  have hvalid : degenerate.validate = .ok () := by decide +kernel
  obtain ⟨hanswers, hfirst, -⟩ := solve_terminates hvalid
  exact ⟨hvalid, hanswers, hfirst⟩

end Simplex

end RelationalLP
