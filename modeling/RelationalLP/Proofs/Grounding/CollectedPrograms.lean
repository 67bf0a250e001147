import Mathlib
import RelationalLP.Proofs.Grounding.BlockSuccess
import RelationalLP.Proofs.Grounding.FinishedProgram

/-! # Feasible points of collected models

A point of a finished program is an assignment of its decision variables. Where the context has collected
the quantities of a model, and those that do not vary hold, the point is feasible exactly when every
quantity holds under the assignment, and its objective is that of the model. -/

namespace RelationalLP

/-- Whether a number satisfies a relation to zero. -/
def Relation.Holds (r : Relation ℚ) (q : ℚ) : Prop := if r.isEquality then q = 0 else q ≤ 0

namespace LinearProgram

/-- **Feasibility by residuals**: those of the inequalities are not above zero, and those of the equations
are zero. -/
theorem feasible_iff_residuals {lp : LinearProgram ℚ} {x : List ℚ} :
    lp.Feasible x ↔ x.length = lp.columnCount ∧ (∀ q ∈ lp.residuals false x, q ≤ 0)
      ∧ ∀ q ∈ lp.residuals true x, q = 0 := by
  have hall : ∀ {test : ℚ → ℚ → Bool} {P : ℚ → Prop}, (∀ l r, test l r = true ↔ P (l - r)) →
      ∀ ls rs : List ℚ, (List.zipWith test ls rs).all id = true
        ↔ ∀ q ∈ List.zipWith (· - ·) ls rs, P q := by
    intro test P htest ls rs
    rw [← List.map_uncurry_zip_eq_zipWith, ← List.map_uncurry_zip_eq_zipWith, List.all_map,
      List.all_eq_true, List.forall_mem_map]
    exact forall₂_congr fun p _ => htest p.1 p.2
  rw [Feasible, satisfied, Bool.and_eq_true, hall (P := (· ≤ 0)), hall (P := (· = 0))]
  · rfl
  · intro l r
    rw [decide_eq_true_eq, Scalar.abs_rat, abs_nonpos_iff]
  · intro l r
    rw [decide_eq_true_eq, add_zero, sub_nonpos]

end LinearProgram

namespace GroundingContext

variable {ctx : GroundingContext ℚ} {v : Atom ℚ → ℚ} {x : List ℚ}

/-- Every point with a coordinate for each column is read from an assignment. -/
theorem exists_reads (hv : ctx.Valid) (hx : x.length = ctx.finish.program.columnCount) :
    ∃ v, ctx.finish.Reads v x := by
  refine ⟨fun a => ((ctx.finish.columns.column? a).bind (x[·]?)).getD 0, hx, fun a j hj => ?_⟩
  have hlt : j < x.length := by
    rw [hx, columnCount_finish]
    exact column?_lt hv hj
  rw [hj, Option.bind_some, List.getElem?_eq_getElem hlt, Option.getD_some]

/-- **Feasibility of a finished program**: the quantities of its rows hold. -/
theorem feasible_finish (hc : ctx.Consistent) (hx : ctx.finish.Reads v x) :
    ctx.finish.program.Feasible x ↔ (∀ F ∈ ctx.quantities false, F v ≤ 0)
      ∧ ∀ F ∈ ctx.quantities true, F v = 0 := by
  rw [LinearProgram.feasible_iff_residuals, residuals_finish hc hx, residuals_finish hc hx,
    List.forall_mem_map, List.forall_mem_map]
  exact and_iff_right hx.length_eq

variable {model : Model ℚ} {F : Quantity} {Fss Fss' : List (List Quantity)}

namespace Collects

/-- Feasibility by constraints: all quantities that vary hold. -/
theorem feasible_iff_varies (h : ctx.Collects model F Fss) (hx : ctx.finish.Reads v x) :
    ctx.finish.program.Feasible x ↔ ∀ p ∈ model.constraints.zip Fss, ∀ F ∈ p.2,
      Quantity.Varies F → p.1.relation.Holds (F v) := by
  -- the quantities of one kind are those of the constraints of that kind that vary
  have hquantities : ∀ {e : Bool} {P : Quantity → Prop}, (∀ F ∈ ctx.quantities e, P F)
      ↔ ∀ p ∈ model.constraints.zip Fss, ∀ F ∈ p.2,
        p.1.relation.isEquality = e → Quantity.Varies F → P F := by
    intro e P
    rw [h.quantities_eq, ← List.map_uncurry_zip_eq_zipWith, ← List.flatMap_def]
    simp only [List.mem_flatMap, Function.uncurry, List.mem_filter, decide_eq_true_eq]
    exact ⟨fun hall p hp F hF he hF' => hall F ⟨p, hp, hF, he, hF'⟩,
      fun hall F ⟨p, hp, hF, he, hF'⟩ => hall p hp F hF he hF'⟩
  rw [feasible_finish h.consistent hx, hquantities, hquantities]
  constructor
  · rintro ⟨hle, heq⟩ p hp F hF hvaries
    rw [Relation.Holds]
    split
    · rename_i he
      exact heq p hp F hF he hvaries
    · rename_i he
      exact hle p hp F hF (Bool.eq_false_iff.mpr he) hvaries
  · intro hall
    refine ⟨fun p hp F hF he hvaries => ?_, fun p hp F hF he hvaries => ?_⟩
    · have hholds := hall p hp F hF hvaries
      rwa [Relation.Holds, he, if_neg Bool.false_ne_true] at hholds
    · have hholds := hall p hp F hF hvaries
      rwa [Relation.Holds, he, if_pos rfl] at hholds

/-- The order of the rows of a constraint does not matter, nor do rows that do not vary and hold. -/
theorem forall_zip_iff (hsame : List.Forall₂ Blocks.SameRows Fss' Fss) (cs : List (Constraint ℚ))
    (hconstant : ∀ p ∈ cs.zip Fss, ∀ F ∈ p.2, p.1.relation.Holds (F 0)) :
    (∀ p ∈ cs.zip Fss', ∀ F ∈ p.2, Quantity.Varies F → p.1.relation.Holds (F v))
      ↔ ∀ p ∈ cs.zip Fss, ∀ F ∈ p.2, p.1.relation.Holds (F v) := by
  induction hsame generalizing cs with
  | nil => simp
  | @cons Fs' Fs Fss' Fss hrows _ ih =>
    cases cs with
    | nil => simp
    | cons c cs =>
      rw [List.zip_cons_cons, List.forall_mem_cons] at hconstant
      rw [List.zip_cons_cons, List.zip_cons_cons, List.forall_mem_cons, List.forall_mem_cons,
        ih cs hconstant.2]
      refine and_congr_left fun _ => ?_
      have hmem : ∀ F, F ∈ Fs' ∧ Quantity.Varies F ↔ F ∈ Fs ∧ Quantity.Varies F := by
        intro F
        simpa only [List.mem_filter, decide_eq_true_eq] using hrows.mem_iff (a := F)
      constructor
      · intro hall F hF
        by_cases hvaries : Quantity.Varies F
        · exact hall F ((hmem F).mpr ⟨hF, hvaries⟩).1 hvaries
        · -- a row that does not vary is not kept, but it has its value at zero
          have hzero : F v = F 0 := not_not.mp (not_exists.mp hvaries v)
          exact hzero ▸ hconstant.1 F hF
      · intro hall F hF hvaries
        exact hall F ((hmem F).mp ⟨hF, hvaries⟩).1

/-- **Feasible points of a collected model**: all quantities hold. -/
theorem feasible_iff (h : ctx.Collects model F Fss') (hsame : List.Forall₂ Blocks.SameRows Fss' Fss)
    (hconstant : ∀ p ∈ model.constraints.zip Fss, ∀ F ∈ p.2, p.1.relation.Holds (F 0))
    (hx : ctx.finish.Reads v x) : ctx.finish.program.Feasible x
      ↔ ∀ p ∈ model.constraints.zip Fss, ∀ F ∈ p.2, p.1.relation.Holds (F v) :=
  (h.feasible_iff_varies hx).trans (forall_zip_iff hsame _ hconstant)

/-- **The objective of a collected model.** -/
theorem objective_finish (h : ctx.Collects model F Fss) (hx : ctx.finish.Reads v x) :
    ctx.finish.program.objective x = model.sense.factor * (F v - F 0) := by
  rw [GroundingContext.objective_finish h.consistent hx, h.model_eq, h.objective_eq]

end Collects

end GroundingContext

end RelationalLP
