import Mathlib
import RelationalLP.Proofs.Flow.Grounding
import RelationalLP.Proofs.Grounding.CollectedPrograms
import RelationalLP.Proofs.Solving.Termination

/-! # The optimum of the flow problem

The feasible points of a grounded flow model are the flows of the network, and the objective is what they
bring into the sink. So the optimum is the most that a flow brings into the sink. That is the value of a
greatest flow where nothing leaves the sink; a circulation through the sink counts in full. -/

namespace RelationalLP

namespace Flow

variable {N : Network} {fb : FactBase ℚ} {source sink : String} {g : Grounded ℚ} {y : Atom ℚ → ℚ}
  {x : List ℚ}

/-! ### Feasible points -/

/-- **The rows of the flow model hold for the flows.** -/
theorem holds_rows_iff {Fss : List (List Quantity)} (h : RowsOf N source sink Fss) :
    (∀ p ∈ (model source sink : Model ℚ).constraints.zip Fss, ∀ F ∈ p.2, p.1.relation.Holds (F y))
      ↔ N.IsFlow source sink (carried y) := by
  obtain ⟨es, es', vs, hes, hes', hvs, rfl⟩ := h
  have hedge : ∀ e, e ∈ es ↔ e ∈ N.edges := fun e => by rw [← hes, List.mem_toFinset]
  have hedge' : ∀ e, e ∈ es' ↔ e ∈ N.edges := fun e => by rw [← hes', List.mem_toFinset]
  have hnode : ∀ v, v ∈ vs ↔ v ∈ N.inner source sink := fun v => by rw [← hvs, List.mem_toFinset]
  have hrows : (model source sink : Model ℚ).constraints.zip
        [es.map (excess N), es'.map deficit, vs.map (imbalance N)]
      = [(withinCapacity, es.map (excess N)), (notNegative, es'.map deficit),
        (passedOn source sink, vs.map (imbalance N))] := rfl
  have hwithin : ∀ q, (withinCapacity : Constraint ℚ).relation.Holds q ↔ q ≤ 0 := fun _ => Iff.rfl
  have hnonneg : ∀ q, (notNegative : Constraint ℚ).relation.Holds q ↔ q ≤ 0 := fun _ => Iff.rfl
  have hpassed : ∀ q, (passedOn source sink : Constraint ℚ).relation.Holds q ↔ q = 0 :=
    fun _ => Iff.rfl
  rw [hrows]
  -- the three blocks of rows are the three conditions of a flow
  simp only [List.forall_mem_cons, List.forall_mem_map, List.not_mem_nil, false_implies,
    implies_true, and_true, hwithin, hnonneg, hpassed, hedge, hedge', hnode, Network.mem_inner,
    excess, deficit, imbalance, sub_nonpos, neg_nonpos, sub_eq_zero]
  constructor
  · rintro ⟨hcapacity, hzero, hconserved⟩
    exact ⟨hzero, hcapacity, fun v hv hsource hsink => hconserved v ⟨hv, hsource, hsink⟩⟩
  · intro hflow
    exact ⟨hflow.le_capacity, hflow.nonneg, fun v hv => hflow.conserved v hv.1 hv.2.1 hv.2.2⟩

namespace Grounds

/-- **The feasible points are the flows.** -/
theorem feasible_iff (h : Grounds N source sink g) (hx : g.Reads y x) :
    g.program.Feasible x ↔ N.IsFlow source sink (carried y) := by
  obtain ⟨ctx, Fss, Fss', rfl, hcollects, hsame, hrows⟩ := h
  -- rows that do not vary hold since they hold where nothing flows
  have hzero := (holds_rows_iff (y := 0) hrows).mpr (N.isFlow_zero source sink)
  exact (hcollects.feasible_iff hsame hzero hx).trans (holds_rows_iff hrows)

/-- **The objective is what comes into the sink.** -/
theorem objective_eq (h : Grounds N source sink g) (hx : g.Reads y x) :
    g.program.objective x = -N.inflow (carried y) sink := by
  obtain ⟨ctx, Fss, Fss', rfl, hcollects, -, -⟩ := h
  rw [hcollects.objective_finish hx, arrived, arrived, inflow_carried_zero, sub_zero]
  exact neg_one_mul _

theorem exists_reads (h : Grounds N source sink g) (hx : x.length = g.program.columnCount) :
    ∃ y, g.Reads y x := by
  obtain ⟨ctx, Fss, Fss', rfl, hcollects, -, -⟩ := h
  exact GroundingContext.exists_reads hcollects.consistent.valid hx

/-- Every choice of flows along the edges is a point. -/
theorem exists_point (h : Grounds N source sink g) (z : String × String → ℚ) :
    ∃ y x, carried y = z ∧ g.Reads y x := by
  obtain ⟨ctx, Fss, Fss', rfl, hcollects, -, -⟩ := h
  -- atoms other than flows have no column, so any value does for them
  obtain ⟨x, hx, -⟩ := GroundingContext.existsUnique_reads hcollects.consistent.valid
    (Function.extend flowAtom z 0)
  have hcarried : carried (Function.extend flowAtom z 0) = z :=
    funext fun e => flowAtom_injective.extend_apply z 0 e
  exact ⟨_, x, hcarried, hx⟩

/-- The objectives of the feasible points are what the flows bring into the sink. -/
theorem mem_inflows_iff (h : Grounds N source sink g) {v : ℚ} :
    v ∈ N.inflows source sink ↔ ∃ x, g.program.Feasible x ∧ g.program.objective x = -v := by
  constructor
  · rintro ⟨z, hz, rfl⟩
    obtain ⟨y, x, rfl, hx⟩ := h.exists_point z
    exact ⟨x, (h.feasible_iff hx).mpr hz, h.objective_eq hx⟩
  · rintro ⟨x, hx, hobjective⟩
    obtain ⟨y, hy⟩ := h.exists_reads hx.1
    refine ⟨carried y, (h.feasible_iff hy).mp hx, neg_injective ?_⟩
    rw [← hobjective, h.objective_eq hy]

/-- **The optimum is the most that a flow brings into the sink.** -/
theorem isOptimum_iff (h : Grounds N source sink g) {v : ℚ} :
    g.program.IsOptimum (-v) ↔ IsGreatest (N.inflows source sink) v := by
  constructor
  · rintro ⟨hattained, hleast⟩
    refine ⟨h.mem_inflows_iff.mpr hattained, fun q hq => ?_⟩
    obtain ⟨x, hx, hobjective⟩ := h.mem_inflows_iff.mp hq
    exact neg_le_neg_iff.mp (hobjective ▸ hleast x hx)
  · rintro ⟨hattained, hgreatest⟩
    refine ⟨h.mem_inflows_iff.mp hattained, fun x hx => neg_le.mp (hgreatest ?_)⟩
    exact h.mem_inflows_iff.mpr ⟨x, hx, (neg_neg _).symm⟩

/-- There is an optimum. -/
theorem exists_isOptimum (h : Grounds N source sink g) : ∃ v, g.program.IsOptimum (-v) := by
  have hwellFormed : g.program.WellFormed := by
    obtain ⟨ctx, Fss, Fss', rfl, hcollects, -, -⟩ := h
    exact GroundingContext.wellFormed_finish hcollects.consistent
  obtain ⟨x, hx, -⟩ := h.mem_inflows_iff.mp ⟨_, N.isFlow_zero source sink, rfl⟩
  -- the capacities of the edges into the sink bound the objective
  have hbound : ∀ x, g.program.Feasible x → -N.inflow N.capacity sink ≤ g.program.objective x := by
    intro x hx
    obtain ⟨y, hy⟩ := h.exists_reads hx.1
    rw [h.objective_eq hy]
    exact neg_le_neg (Network.inflow_le ((h.feasible_iff hy).mp hx) sink)
  obtain ⟨v, hv⟩ := Simplex.exists_isOptimum hwellFormed ⟨x, hx⟩ hbound
  exact ⟨-v, (neg_neg v).symm ▸ hv⟩

end Grounds

/-! ### The problem -/

/-- Grounding the flow model succeeds both ways. -/
theorem exists_grounds (h : N.StoredIn fb) (hne : source ≠ sink) {grounder : Grounder ℚ}
    (hgrounder : grounder = Blocks.ground fb.knowledgeBase
      ∨ grounder = Instances.ground fb.knowledgeBase) :
    ∃ g, grounder (model source sink) = .ok g ∧ Grounds N source sink g := by
  obtain rfl | rfl := hgrounder
  · exact exists_grounds_blocks h hne
  · exact exists_grounds_instances h hne

/-- **The flow problem of a stored network** is declared and grounded without fail. Its optimum, in the
direction of the problem, is the most that a flow brings into the sink; no flow has a greater value. It is
the value of a greatest flow exactly when some flow brings it into the sink and nothing leaves the sink, so
always when no edge out of the sink can carry anything. -/
theorem maxFlow_optimum (h : N.StoredIn fb) (hne : source ≠ sink)
    (hsource : Token.StartsWith Char.isLower source) (hsink : Token.StartsWith Char.isLower sink)
    {grounder : Grounder ℚ} (hgrounder : grounder = Blocks.ground fb.knowledgeBase
      ∨ grounder = Instances.ground fb.knowledgeBase) (solver : Solver ℚ) :
    ∃ p g, maxFlow grounder solver source sink = .ok p ∧ p.ground = .ok g
      ∧ ∃ v, g.program.IsOptimum (p.model.sense.factor * v) ∧ IsGreatest (N.inflows source sink) v
        ∧ v ∈ upperBounds (N.values source sink)
        ∧ (IsGreatest (N.values source sink) v
          ↔ ∃ x, N.IsFlow source sink x ∧ N.inflow x sink = v ∧ N.outflow x sink = 0)
        ∧ ((∀ e ∈ N.edges, e.1 = sink → N.capacity e = 0) → IsGreatest (N.values source sink) v) := by
  obtain ⟨g, hground, hg⟩ := exists_grounds h hne hgrounder
  obtain ⟨v, hv⟩ := hg.exists_isOptimum
  have hgreatest := hg.isOptimum_iff.mp hv
  have hbound : v ∈ upperBounds (N.values source sink) :=
    fun q hq => Network.le_of_mem_values hq hgreatest.2
  refine ⟨_, g, maxFlow_eq_ok grounder solver hsource hsink, ?_, v, ?_, hgreatest, hbound, ?_,
    fun hclosed => Network.values_eq_inflows hclosed ▸ hgreatest⟩
  · exact congrArg (Except.mapError _) hground
  · -- a maximization is the minimization of the opposite
    exact (neg_one_mul v).symm ▸ hv
  · exact Network.isGreatest_values_iff hgreatest

/-! ### A circulation through the sink -/

/-- An edge from the source `s` to a node `a`, one from there to the sink `t`, and one back that carries up
to `c`. -/
def returning (c : ℕ) : Network where
  nodes := {"s", "a", "t"}
  edges := {("s", "a"), ("a", "t"), ("t", "a")}
  capacity := fun e => if e.1 = "s" then 3 else if e.1 = "a" then 5 else c
  ends := by simp
  capacity_nonneg := by simp

/-- The facts of this network. -/
def returningFacts (c : ℕ) : FactBase ℚ where
  facts := [("node", [.text "s"]), ("node", [.text "a"]), ("node", [.text "t"]),
    ("edge", [.text "s", .text "a"]), ("edge", [.text "a", .text "t"]),
    ("edge", [.text "t", .text "a"]), ("cap", [.text "s", .text "a", .integer 3]),
    ("cap", [.text "a", .text "t", .integer 5]), ("cap", [.text "t", .text "a", .integer c])]

theorem storedIn_returning (c : ℕ) : (returning c).StoredIn (returningFacts c) where
  node_iff := by
    intro row
    have hrows : (returningFacts c).rows "node" = [[.text "s"], [.text "a"], [.text "t"]] := rfl
    rw [hrows]
    simp only [returning, List.mem_cons, List.not_mem_nil, or_false, Finset.mem_insert,
      Finset.mem_singleton, exists_eq_or_imp, exists_eq_left, and_iff_left_iff_imp]
    rintro (rfl | rfl | rfl) <;> rfl
  edge_iff := by
    intro row
    have hrows : (returningFacts c).rows "edge" = [[.text "s", .text "a"], [.text "a", .text "t"],
      [.text "t", .text "a"]] := rfl
    rw [hrows]
    simp only [returning, List.mem_cons, List.not_mem_nil, or_false, Finset.mem_insert,
      Finset.mem_singleton, exists_eq_or_imp, exists_eq_left, and_iff_left_iff_imp]
    rintro (rfl | rfl | rfl) <;> rfl
  capacity_eq := by
    have hrows : (returningFacts c).rows "cap" = [[.text "s", .text "a", .integer 3],
      [.text "a", .text "t", .integer 5], [.text "t", .text "a", .integer c]] := rfl
    intro e he
    rw [hrows]
    simp only [returning, Finset.mem_insert, Finset.mem_singleton] at he
    obtain rfl | rfl | rfl := he
    · exact ⟨.integer 3, rfl, by simp⟩
    · exact ⟨.integer 5, rfl, by simp⟩
    · exact ⟨.integer c, rfl, by simp⟩

section

variable {c : ℕ}

theorem inflow_returning (z : String × String → ℚ) :
    (returning c).inflow z "t" = z ("a", "t") := by
  simp [Network.inflow, returning, Finset.sum_filter]

theorem outflow_returning (z : String × String → ℚ) :
    (returning c).outflow z "t" = z ("t", "a") := by
  simp [Network.outflow, returning, Finset.sum_filter]

/-- The flows of this network. -/
theorem isFlow_returning_iff {z : String × String → ℚ} :
    (returning c).IsFlow "s" "t" z ↔ (0 ≤ z ("s", "a") ∧ 0 ≤ z ("a", "t") ∧ 0 ≤ z ("t", "a"))
      ∧ (z ("s", "a") ≤ 3 ∧ z ("a", "t") ≤ 5 ∧ z ("t", "a") ≤ c)
      ∧ z ("s", "a") + z ("t", "a") = z ("a", "t") := by
  have hnode : (returning c).inflow z "a" = z ("s", "a") + z ("t", "a")
      ∧ (returning c).outflow z "a" = z ("a", "t") := by
    simp [Network.inflow, Network.outflow, returning, Finset.sum_filter]
  constructor
  · intro h
    refine ⟨by simpa [returning] using h.nonneg, by simpa [returning] using h.le_capacity, ?_⟩
    rw [← hnode.1, ← hnode.2]
    exact h.conserved "a" (by simp [returning]) (by decide) (by decide)
  · rintro ⟨hnonneg, hcapacity, hconserved⟩
    refine ⟨by simpa [returning] using hnonneg, by simpa [returning] using hcapacity, ?_⟩
    intro v hv hsource hsink
    obtain rfl : v = "a" := by simpa [returning, hsource, hsink] using hv
    rw [hnode.1, hnode.2, hconserved]

/-- The greatest flow takes three units out of the source, whatever the way back can carry. -/
theorem isGreatest_values_returning : IsGreatest ((returning c).values "s" "t") 3 := by
  constructor
  · refine ⟨fun e => if e.1 = "t" then 0 else 3, isFlow_returning_iff.mpr ?_, ?_⟩
    · have hle : (3 : ℚ) ≤ 5 := by norm_num
      simp [hle]
    · simp [Network.value, inflow_returning, outflow_returning]
  · rintro _ ⟨z, hz, rfl⟩
    obtain ⟨-, ⟨hsource, -, -⟩, hconserved⟩ := isFlow_returning_iff.mp hz
    -- what flows back cancels, and what is left is what leaves the source
    have hvalue : (returning c).value z "t" = z ("a", "t") - z ("t", "a") := by
      rw [Network.value, inflow_returning, outflow_returning]
    linarith

/-- Five units may come into the sink when the way back can carry as much. -/
theorem isGreatest_inflows_returning (hle : 5 ≤ c) :
    IsGreatest ((returning c).inflows "s" "t") 5 := by
  constructor
  · refine ⟨fun e => if e.1 = "s" then 0 else 5, isFlow_returning_iff.mpr ?_, ?_⟩
    · simp [hle]
    · simp [inflow_returning]
  · rintro _ ⟨z, hz, rfl⟩
    exact (inflow_returning z).trans_le (isFlow_returning_iff.mp hz).2.1.2.1

end

theorem startsWith_s : Token.StartsWith Char.isLower "s" := ⟨'s', [], rfl, rfl, nofun⟩

theorem startsWith_t : Token.StartsWith Char.isLower "t" := ⟨'t', [], rfl, rfl, nofun⟩

/-- Where nothing can flow back, the optimum is the value of the greatest flow. -/
theorem maxFlow_optimum_returning : (returning 0).StoredIn (returningFacts 0)
    ∧ ("s" ≠ "t" ∧ Token.StartsWith Char.isLower "s" ∧ Token.StartsWith Char.isLower "t") ∧ ∃ p g,
      maxFlow (Blocks.ground (returningFacts 0).knowledgeBase) (Simplex.solve ⟨100, 0⟩) "s" "t" = .ok p
      ∧ p.ground = .ok g ∧ g.program.IsOptimum (p.model.sense.factor * 3)
      ∧ IsGreatest ((returning 0).values "s" "t") 3 := by
  have hclosed : ∀ e ∈ (returning 0).edges, e.1 = "t" → (returning 0).capacity e = 0 := by
    simp [returning]
  obtain ⟨p, g, hp, hg, v, hv, -, -, -, hgreatest⟩ := maxFlow_optimum (storedIn_returning 0) (by decide)
    startsWith_s startsWith_t (.inl rfl) (Simplex.solve ⟨100, 0⟩)
  obtain rfl : v = 3 := (hgreatest hclosed).unique isGreatest_values_returning
  exact ⟨storedIn_returning 0, ⟨by decide, startsWith_s, startsWith_t⟩, p, g, hp, hg, hv,
    isGreatest_values_returning⟩

/-- **A circulation through the sink is counted**: where five units can flow back, the optimum is five, but
no flow has a greater value than three. -/
theorem maxFlow_counts_circulation :
    (returning 5).StoredIn (returningFacts 5) ∧ ∃ p g,
      maxFlow (Blocks.ground (returningFacts 5).knowledgeBase) (Simplex.solve ⟨100, 0⟩) "s" "t" = .ok p
      ∧ p.ground = .ok g ∧ g.program.IsOptimum (p.model.sense.factor * 5)
      ∧ IsGreatest ((returning 5).values "s" "t") 3 := by
  have hstored := storedIn_returning 5
  obtain ⟨g, hground, hg⟩ := exists_grounds_blocks hstored (show "s" ≠ "t" by decide)
  have hoptimum := hg.isOptimum_iff.mpr (isGreatest_inflows_returning le_rfl)
  refine ⟨hstored, _, g, maxFlow_eq_ok _ _ startsWith_s startsWith_t,
    congrArg (Except.mapError _) hground, ?_, isGreatest_values_returning⟩
  exact (neg_one_mul (5 : ℚ)).symm ▸ hoptimum

end Flow

end RelationalLP
