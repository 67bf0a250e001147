import Mathlib

/-! # Flow networks

Networks of nodes and edges with capacities, and the flows between a source and a sink. A flow is worth
what it brings into the sink beyond what it takes out again, which is what it takes out of the source
beyond what it brings back; where nothing leaves the sink that is all that comes in. -/

namespace RelationalLP

namespace Flow

/-- **A flow network**: nodes, edges between them, and a capacity for each edge, none below zero. -/
structure Network where
  /-- The nodes. -/
  nodes : Finset String
  /-- The edges, each from its first to its second end. -/
  edges : Finset (String × String)
  /-- What an edge can carry. -/
  capacity : String × String → ℚ
  /-- Edges lead from nodes to nodes. -/
  ends : ∀ e ∈ edges, e.1 ∈ nodes ∧ e.2 ∈ nodes
  /-- Capacities are not negative. -/
  capacity_nonneg : ∀ e ∈ edges, 0 ≤ capacity e

namespace Network

variable {N : Network} {source sink : String} {x y : String × String → ℚ}

/-- What comes into a node. -/
def inflow (N : Network) (x : String × String → ℚ) (v : String) : ℚ := ∑ e ∈ N.edges with e.2 = v, x e

/-- What goes out of a node. -/
def outflow (N : Network) (x : String × String → ℚ) (v : String) : ℚ := ∑ e ∈ N.edges with e.1 = v, x e

/-- **A flow**: every edge carries between zero and its capacity, and every node but the source and the sink
passes on what it receives. -/
structure IsFlow (N : Network) (source sink : String) (x : String × String → ℚ) : Prop where
  /-- No edge carries less than nothing. -/
  nonneg : ∀ e ∈ N.edges, 0 ≤ x e
  /-- No edge carries more than its capacity. -/
  le_capacity : ∀ e ∈ N.edges, x e ≤ N.capacity e
  /-- Nodes pass on what they receive. -/
  conserved : ∀ v ∈ N.nodes, v ≠ source → v ≠ sink → N.inflow x v = N.outflow x v

/-- The value of a flow: what comes into the sink beyond what goes out of it. -/
def value (N : Network) (x : String × String → ℚ) (sink : String) : ℚ :=
  N.inflow x sink - N.outflow x sink

/-- The values of all flows. -/
def values (N : Network) (source sink : String) : Set ℚ := (N.value · sink) '' {x | N.IsFlow source sink x}

/-- What all flows bring into the sink. -/
def inflows (N : Network) (source sink : String) : Set ℚ :=
  (N.inflow · sink) '' {x | N.IsFlow source sink x}

/-! ### Flows -/

/-- Nothing may flow. -/
theorem isFlow_zero (N : Network) (source sink : String) : N.IsFlow source sink fun _ => 0 where
  nonneg := fun _ _ => le_rfl
  le_capacity := N.capacity_nonneg
  conserved := fun v _ _ _ => by
    rw [inflow, outflow]
    exact (Finset.sum_const_zero).trans Finset.sum_const_zero.symm

theorem inflow_congr (h : ∀ e ∈ N.edges, x e = y e) (v : String) : N.inflow x v = N.inflow y v :=
  Finset.sum_congr rfl fun e he => h e (Finset.mem_of_mem_filter e he)

theorem outflow_congr (h : ∀ e ∈ N.edges, x e = y e) (v : String) : N.outflow x v = N.outflow y v :=
  Finset.sum_congr rfl fun e he => h e (Finset.mem_of_mem_filter e he)

/-- What flows along other pairs of nodes does not matter. -/
theorem IsFlow.congr (hx : N.IsFlow source sink x) (h : ∀ e ∈ N.edges, x e = y e) :
    N.IsFlow source sink y where
  nonneg := fun e he => h e he ▸ hx.nonneg e he
  le_capacity := fun e he => h e he ▸ hx.le_capacity e he
  conserved := fun v hv hsource hsink => by
    rw [← inflow_congr h, ← outflow_congr h]
    exact hx.conserved v hv hsource hsink

theorem outflow_nonneg (hx : N.IsFlow source sink x) (v : String) : 0 ≤ N.outflow x v :=
  Finset.sum_nonneg fun e he => hx.nonneg e (Finset.mem_of_mem_filter e he)

/-- No more comes into a node than its edges can carry. -/
theorem inflow_le (hx : N.IsFlow source sink x) (v : String) :
    N.inflow x v ≤ N.inflow N.capacity v :=
  Finset.sum_le_sum fun e he => hx.le_capacity e (Finset.mem_of_mem_filter e he)

/-- All that comes into the nodes goes out of them. -/
theorem sum_inflow_eq_sum_outflow (N : Network) (x : String × String → ℚ) :
    ∑ v ∈ N.nodes, N.inflow x v = ∑ v ∈ N.nodes, N.outflow x v := by
  -- every edge has one second end and one first end, and both are nodes
  have hin : ∑ v ∈ N.nodes, N.inflow x v = ∑ e ∈ N.edges, x e :=
    Finset.sum_fiberwise_of_maps_to (fun e he => (N.ends e he).2) x
  have hout : ∑ v ∈ N.nodes, N.outflow x v = ∑ e ∈ N.edges, x e :=
    Finset.sum_fiberwise_of_maps_to (fun e he => (N.ends e he).1) x
  rw [hin, hout]

/-- **What a flow brings into the sink it takes out of the source.** -/
theorem IsFlow.value_eq (hx : N.IsFlow source sink x) (hsource : source ∈ N.nodes) (hsink : sink ∈ N.nodes)
    (hne : source ≠ sink) : N.value x sink = N.outflow x source - N.inflow x source := by
  have hbalance : ∑ v ∈ N.nodes, (N.inflow x v - N.outflow x v) = 0 := by
    rw [Finset.sum_sub_distrib, sum_inflow_eq_sum_outflow, sub_self]
  -- all other nodes are balanced, so what the sink keeps is what the source gives
  have hends : ∑ v ∈ N.nodes, (N.inflow x v - N.outflow x v)
      = (N.inflow x source - N.outflow x source) + (N.inflow x sink - N.outflow x sink) := by
    refine Finset.sum_eq_add source sink hne (fun v hv hother => ?_) (absurd hsource) (absurd hsink)
    rw [hx.conserved v hv hother.1 hother.2, sub_self]
  rw [value]
  linarith [hends.symm.trans hbalance]

/-! ### Greatest flows -/

/-- Where no edge out of the sink can carry anything, the value of a flow is all that comes in. -/
theorem IsFlow.value_eq_inflow (hx : N.IsFlow source sink x)
    (hclosed : ∀ e ∈ N.edges, e.1 = sink → N.capacity e = 0) : N.value x sink = N.inflow x sink := by
  have hzero : N.outflow x sink = 0 := by
    refine Finset.sum_eq_zero fun e he => ?_
    obtain ⟨hedge, hfirst⟩ := Finset.mem_filter.mp he
    exact le_antisymm (hclosed e hedge hfirst ▸ hx.le_capacity e hedge) (hx.nonneg e hedge)
  rw [value, hzero, sub_zero]

/-- Then the flows have the values that they bring into the sink. -/
theorem values_eq_inflows (hclosed : ∀ e ∈ N.edges, e.1 = sink → N.capacity e = 0) :
    N.values source sink = N.inflows source sink :=
  Set.image_congr fun _ hx => hx.value_eq_inflow hclosed

/-- No flow is worth more than some flow brings into the sink. -/
theorem le_of_mem_values {q v : ℚ} (hq : q ∈ N.values source sink)
    (hv : v ∈ upperBounds (N.inflows source sink)) : q ≤ v := by
  obtain ⟨x, hx, rfl⟩ := hq
  exact (sub_le_self _ (outflow_nonneg hx sink)).trans (hv ⟨x, hx, rfl⟩)

/-- **When the most that a flow brings into the sink is the value of a greatest flow**: when some flow brings
it in and takes nothing out again. -/
theorem isGreatest_values_iff {v : ℚ} (hv : IsGreatest (N.inflows source sink) v) :
    IsGreatest (N.values source sink) v
      ↔ ∃ x, N.IsFlow source sink x ∧ N.inflow x sink = v ∧ N.outflow x sink = 0 := by
  constructor
  · rintro ⟨⟨x, hx, hvalue⟩, -⟩
    have hbound : N.inflow x sink ≤ v := hv.2 ⟨x, hx, rfl⟩
    have hvalue : N.inflow x sink - N.outflow x sink = v := hvalue
    -- a flow that reaches the bound net of what it takes out takes nothing out
    have hzero : N.outflow x sink = 0 := le_antisymm (by linarith) (outflow_nonneg hx sink)
    exact ⟨x, hx, by rwa [hzero, sub_zero] at hvalue, hzero⟩
  · rintro ⟨x, hx, rfl, hzero⟩
    refine ⟨⟨x, hx, ?_⟩, fun q hq => le_of_mem_values hq hv.2⟩
    exact (congrArg (N.inflow x sink - ·) hzero).trans (sub_zero _)

end Network

end Flow

end RelationalLP
