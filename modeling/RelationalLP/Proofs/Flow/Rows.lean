import Mathlib
import RelationalLP.Proofs.Flow.StoredNetworks
import RelationalLP.Proofs.Grounding.BlockSuccess

/-! # Rows of the flow model

The quantities that the rows of the flow model stand for: by how much an edge exceeds its capacity, by
how much it falls below zero, and by how much more comes into a node than goes out of it. The objective
is what comes into the sink. -/

namespace RelationalLP

namespace Flow

variable {N : Network} {fb : FactBase ℚ} {source sink : String}

/-! ### Quantities -/

/-- The decision variable of the flow along an edge. -/
def flowAtom (e : String × String) : Atom ℚ :=
  ⟨flowTemplate, [.const (.text e.1), .const (.text e.2)]⟩

theorem flowAtom_injective : Function.Injective flowAtom := by
  intro e e' h
  obtain ⟨hsource, htarget⟩ : e.1 = e'.1 ∧ e.2 = e'.2 := by simpa [flowAtom] using h
  exact Prod.ext hsource htarget

/-- What the edges carry under an assignment. -/
def carried (x : Atom ℚ → ℚ) (e : String × String) : ℚ := x (flowAtom e)

/-- What comes into the sink. -/
def arrived (N : Network) (sink : String) : Quantity := fun x => N.inflow (carried x) sink

/-- What an edge carries beyond its capacity. -/
def excess (N : Network) (e : String × String) : Quantity := fun x => carried x e - N.capacity e

/-- What an edge carries below zero. -/
def deficit (e : String × String) : Quantity := fun x => -carried x e

/-- What comes into a node beyond what goes out of it. -/
def imbalance (N : Network) (v : String) : Quantity := fun x =>
  N.inflow (carried x) v - N.outflow (carried x) v

theorem inflow_carried_zero (N : Network) (v : String) : N.inflow (carried 0) v = 0 :=
  Finset.sum_const_zero

theorem outflow_carried_zero (N : Network) (v : String) : N.outflow (carried 0) v = 0 :=
  Finset.sum_const_zero

theorem imbalance_zero (N : Network) (v : String) : imbalance N v 0 = 0 := by
  rw [imbalance, inflow_carried_zero, outflow_carried_zero, sub_zero]

/-- **The rows of the flow model**: one for each edge and its capacity, one for each edge and zero, and one
for each inner node, in some order. -/
def RowsOf (N : Network) (source sink : String) (Fss : List (List Quantity)) : Prop :=
  ∃ (es es' : List (String × String)) (vs : List String),
    es.toFinset = N.edges ∧ es'.toFinset = N.edges ∧ vs.toFinset = N.inner source sink
    ∧ Fss = [es.map (excess N), es'.map deficit, vs.map (imbalance N)]

/-! ### Summands -/

theorem summands_of_expand {e : Expr ℚ} {ss ss' : List (Summand ℚ)} (h : e.expand = .ok ss)
    (hss : (ss.filter fun s => !Scalar.isZero s.coefficient) = ss') : e.summands = .ok ss' := by
  rw [Expr.summands, h, ← hss]
  rfl

variable (t u : Term ℚ)

/-- The flow along an edge as a summand. -/
def flowSummand (q : Option (Query ℚ)) (c : ℚ) : Summand ℚ :=
  ⟨q, c, [.atom ⟨flowTemplate, [t, u]⟩]⟩

/-- The capacity of an edge as a summand. -/
def capacitySummand (c : ℚ) : Summand ℚ := ⟨none, c, [.atom ⟨capTemplate, [t, u]⟩]⟩

theorem summands_intoSink (sink : String) : (intoSink sink : Expr ℚ).summands
    = .ok [flowSummand (variableTerm "X") (.const (.text sink))
      (some (edgesInto "X" (.const (.text sink)))) 1] := by
  have hexpand : (intoSink sink : Expr ℚ).expand
      = .ok [flowSummand (variableTerm "X") (.const (.text sink))
        (some (edgesInto "X" (.const (.text sink)))) (1 * 1)] := rfl
  exact summands_of_expand hexpand (by simp [flowSummand])

theorem summands_excess : (Expr.sub (flow t u) (capacity t u)).summands
    = .ok [flowSummand t u none 1, capacitySummand t u (-1)] := by
  have hexpand : (Expr.sub (flow t u) (capacity t u)).expand
      = .ok [flowSummand t u none 1, capacitySummand t u (1 * -1 * 1)] := rfl
  exact summands_of_expand hexpand (by simp [flowSummand, capacitySummand])

theorem summands_deficit : (Expr.sub (.constant 0) (flow t u)).summands
    = .ok [flowSummand t u none (-1)] := by
  have hexpand : (Expr.sub (.constant 0) (flow t u)).expand
      = .ok [⟨none, 0, []⟩, flowSummand t u none (1 * -1 * 1)] := rfl
  exact summands_of_expand hexpand (by simp [flowSummand])

theorem summands_imbalance : (Expr.sub (.sum (edgesInto "U" t) (flow (variableTerm "U") t))
      (.sum (edgesOutOf "W" t) (flow t (variableTerm "W")))).summands
    = .ok [flowSummand (variableTerm "U") t (some (edgesInto "U" t)) 1,
      flowSummand t (variableTerm "W") (some (edgesOutOf "W" t)) (-1)] := by
  have hexpand : (Expr.sub (.sum (edgesInto "U" t) (flow (variableTerm "U") t))
      (.sum (edgesOutOf "W" t) (flow t (variableTerm "W")))).expand
        = .ok [flowSummand (variableTerm "U") t (some (edgesInto "U" t)) (1 * 1),
          flowSummand t (variableTerm "W") (some (edgesOutOf "W" t)) (1 * -1 * (1 * 1))] := rfl
  exact summands_of_expand hexpand (by simp [flowSummand])

end Flow

end RelationalLP
