import Mathlib
import RelationalLP.Model
import RelationalLP.Proofs.Expr.Scoping
import RelationalLP.Proofs.Facts.Worlds

/-! # Groundable expressions

What grounding expects of an expression: its constants belong to the world, the variables of its formulas
are bound around them, and its formulas have truth values wherever they are reached. -/

namespace RelationalLP

namespace World

variable {w : World}

/-- **Admitted terms**: symbols, and the constants of the world. -/
def Admits (w : World) (t : Term ℚ) : Prop := ∀ c, t = .const c → c ∈ w.domain

/-- Fresh names are admitted. -/
theorem keptByFresh_admits (w : World) : Summand.KeptByFresh w.Admits := by
  rintro used s - c hc
  cases hc

/-- The constants among admitted terms are known. -/
theorem knows_of_admits {ts : List (Term ℚ)} (h : ∀ t ∈ ts, w.Admits t) : w.constants.Knows ts :=
  fun c hc => h (.const c) hc c rfl

end World

/-- **Groundable expressions**: the terms are admitted, the formulas scoped and decided. -/
structure Expr.Groundable (w : World) (e : Expr ℚ) : Prop where
  /-- The constants are those of the world. -/
  admitted : ∀ t ∈ e.terms, w.Admits t
  /-- The variables of each formula are bound around it. -/
  inScope : e.Scoped []
  /-- Every formula that is reached has a truth value. -/
  decided : e.Decided w .unbound

/-! ### Summands -/

namespace Summand

variable {w : World}

/-- The query of a summand; without one there is the one answer of the query that always holds. -/
def base (s : Summand ℚ) : Query ℚ := s.query.getD .always

variable {s : Summand ℚ}

theorem bound_eq_base (s : Summand ℚ) : s.bound = s.base.symbols := by
  rw [bound, base]
  cases s.query with
  | none => rfl
  | some q => rfl

theorem condition_eq_base (s : Summand ℚ) (v : Valuation ℚ) :
    s.condition w v = s.base.formula.kleene v w.truthOf := by
  rw [condition, base]
  cases s.query with
  | none => rfl
  | some q => rfl

/-- The variables of the query of a fitting summand are bound by it or by the scope. -/
theorem Fits.base_inScope {scope : List Symbol} (h : s.Fits w.Admits scope) : s.base.Scoped scope := by
  rw [base]
  cases hq : s.query with
  | none => exact fun x hx => absurd hx List.not_mem_nil
  | some q => exact h.inScope q hq

theorem Fits.base_knows {scope : List Symbol} (h : s.Fits w.Admits scope) :
    w.constants.Knows s.base.formula.terms := by
  rw [base]
  cases hq : s.query with
  | none => exact fun c hc => absurd hc List.not_mem_nil
  | some q =>
    have hterms := h.query q hq
    rw [Query.terms, List.forall_mem_append] at hterms
    exact World.knows_of_admits hterms.2

end Summand

/-! ### Constraints -/

namespace Constraint

/-- The query over whose answers a constraint ranges; a single relation has the one answer of the query
that always holds. -/
def outer (c : Constraint ℚ) : Query ℚ := c.query?.getD .always

/-- A constraint as the sum of its instances. -/
def summed (c : Constraint ℚ) : Expr ℚ := .sum c.outer c.relation.canonical

end Constraint

/-- **Groundable models**: the objective is groundable, and so is every constraint. -/
structure Model.Groundable (w : World) (model : Model ℚ) : Prop where
  /-- The objective is groundable. -/
  objective : ∀ e ∈ model.objective, e.Groundable w
  /-- The constraints are groundable. -/
  constraints : ∀ c ∈ model.constraints, c.summed.Groundable w

end RelationalLP
