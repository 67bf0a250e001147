import Mathlib
import RelationalLP.Proofs.Flow.Rows
import RelationalLP.Proofs.Grounding.ListedAnswers

/-! # Grounding the flow model

Over a fact base that stores a network, grounding the flow model succeeds both ways. It collects what
comes into the sink as its objective, and a row for each edge and its capacity, for each edge and zero,
and for each inner node. -/

namespace RelationalLP

namespace Flow

open FactBase

variable {N : Network} {fb : FactBase ℚ} {source sink : String}

/-- **What a grounded flow model collects**: what comes into the sink, and the rows of the flow model,
those of one constraint in some order. -/
def Grounds (N : Network) (source sink : String) (g : Grounded ℚ) : Prop :=
  ∃ (ctx : GroundingContext ℚ) (Fss Fss' : List (List Quantity)), g = ctx.finish
    ∧ ctx.Collects (model source sink) (arrived N sink) Fss'
    ∧ List.Forall₂ Blocks.SameRows Fss' Fss ∧ RowsOf N source sink Fss

theorem decisionIndex?_flow (source sink : String) :
    ((model source sink : Model ℚ).decisionIndex? flowTemplate).isSome := rfl

/-- The flow along an edge is a declared decision variable. -/
theorem declared_of_summands {e : Expr ℚ} {ss : List (Summand ℚ)} (hss : e.summands = .ok ss)
    (h : ∀ s ∈ ss, ∀ a, s.decision? = some a → a.template = flowTemplate) :
    e.Declared (model source sink) := by
  intro ss' hss' s hs a ha
  obtain rfl : ss = ss' := Except.ok.inj (hss.symm.trans hss')
  rw [h s hs a ha]
  exact decisionIndex?_flow source sink

theorem template_of_flowSummand {t u : Term ℚ} {q : Option (Query ℚ)} {c : ℚ} :
    ∀ a, (flowSummand t u q c).decision? = some a → a.template = flowTemplate := by
  intro a ha
  obtain rfl := Option.some.inj ha
  rfl

/-- The variable of a flow is ground where its terms stand for the ends of an edge. -/
theorem groundAt_flow {t u : Term ℚ} {v : Valuation ℚ} {e : String × String}
    (ht : t.valueAt v = some (.text e.1)) (hu : u.valueAt v = some (.text e.2)) :
    (⟨flowTemplate, [t, u]⟩ : Atom ℚ).groundAt v = some (flowAtom e) := by
  simp [Atom.groundAt, ht, hu, flowAtom]

/-- Quantities that are not above zero where nothing flows satisfy an inequality there. -/
theorem tolerates_of_nonpos {r : Relation ℚ} {q : ℚ} (hr : r.isEquality = false) (hq : q ≤ 0) :
    r.Tolerates q := by
  rw [Relation.Tolerates, hr, if_neg Bool.false_ne_true]
  exact hq.trans (by norm_num)

theorem tolerates_zero (r : Relation ℚ) : r.Tolerates 0 := by
  rw [Relation.Tolerates]
  split <;> norm_num

theorem excess_zero_nonpos {e : String × String} (he : e ∈ N.edges) : excess N e 0 ≤ 0 :=
  sub_nonpos.mpr (N.capacity_nonneg e he)

/-! ### By instances -/

section

open Instances

/-- The flow along the edges into a node. -/
theorem summandGives_into (h : N.StoredIn fb) (symbol v : String) (c : ℚ) :
    SummandGives fb.knowledgeBase (flowSummand (variableTerm symbol) (.const (.text v))
      (some (edgesInto symbol (.const (.text v)))) c) fun x => c * N.inflow (carried x) v := by
  have hg : ∀ e ∈ {e ∈ N.edges | e.2 = v},
      (⟨flowTemplate, [variableTerm symbol, .const (.text v)]⟩ : Atom ℚ).groundAt
        (Binding.ofAnswer [⟨symbol⟩] [.text e.1]).get? = some (flowAtom e) := by
    intro e he
    obtain ⟨-, rfl⟩ := Finset.mem_filter.mp he
    exact groundAt_flow (Binding.get?_bind _ _ _ _ |>.trans (if_pos rfl)) rfl
  simp only [Network.inflow, Finset.mul_sum]
  exact Instances.summandGives_of_lists rfl rfl rfl (lists_edgesInto h symbol v []) hg

/-- The flow along the edges out of a node. -/
theorem summandGives_outOf (h : N.StoredIn fb) (symbol v : String) (c : ℚ) :
    SummandGives fb.knowledgeBase (flowSummand (.const (.text v)) (variableTerm symbol)
      (some (edgesOutOf symbol (.const (.text v)))) c) fun x => c * N.outflow (carried x) v := by
  have hg : ∀ e ∈ {e ∈ N.edges | e.1 = v},
      (⟨flowTemplate, [.const (.text v), variableTerm symbol]⟩ : Atom ℚ).groundAt
        (Binding.ofAnswer [⟨symbol⟩] [.text e.2]).get? = some (flowAtom e) := by
    intro e he
    obtain ⟨-, rfl⟩ := Finset.mem_filter.mp he
    exact groundAt_flow rfl (Binding.get?_bind _ _ _ _ |>.trans (if_pos rfl))
  simp only [Network.outflow, Finset.mul_sum]
  exact Instances.summandGives_of_lists rfl rfl rfl (lists_edgesOutOf h symbol v []) hg

/-- The flow along an edge. -/
theorem summandGives_edge (e : String × String) (c : ℚ) : SummandGives fb.knowledgeBase
    (flowSummand (.const (.text e.1)) (.const (.text e.2)) none c) fun x => c * carried x e := by
  refine ⟨[.empty], [fun x => c * carried x e], rfl, .cons ⟨[], _, .nil, .some rfl, ?_⟩ .nil, ?_⟩
  · rw [List.prod_nil]
    simp only [mul_one]
    rfl
  · funext x
    exact (List.sum_singleton).symm

/-- The capacity of an edge. -/
theorem summandGives_capacity (h : N.StoredIn fb) {e : String × String} (he : e ∈ N.edges) (c : ℚ) :
    SummandGives fb.knowledgeBase (capacitySummand (.const (.text e.1)) (.const (.text e.2)) c)
      fun _ => c * N.capacity e := by
  refine ⟨[.empty], [fun _ => c * N.capacity e], rfl, .cons ⟨[N.capacity e], _,
    .cons (.atom rfl rfl (askFact_capacity h he)) .nil, .none, ?_⟩ .nil, ?_⟩
  · rw [List.prod_singleton, mul_one]
    rfl
  · funext x
    exact (List.sum_singleton).symm

theorem exprGives_intoSink (h : N.StoredIn fb) (sink : String) :
    ExprGives fb.knowledgeBase (intoSink sink) (arrived N sink) := by
  refine ⟨_, _, summands_intoSink sink, .cons (summandGives_into h "X" sink 1) .nil, ?_⟩
  funext x
  simp [arrived]

theorem exprGives_excess (h : N.StoredIn fb) {e : String × String} (he : e ∈ N.edges) :
    ExprGives fb.knowledgeBase (.sub (flow (.const (.text e.1)) (.const (.text e.2)))
      (capacity (.const (.text e.1)) (.const (.text e.2)))) (excess N e) := by
  refine ⟨_, _, summands_excess _ _,
    .cons (summandGives_edge e 1) (.cons (summandGives_capacity h he (-1)) .nil), ?_⟩
  funext x
  simp [excess, sub_eq_add_neg]

theorem exprGives_deficit (e : String × String) : ExprGives fb.knowledgeBase
    (.sub (.constant 0) (flow (.const (.text e.1)) (.const (.text e.2)))) (deficit e) := by
  refine ⟨_, _, summands_deficit _ _, .cons (summandGives_edge e (-1)) .nil, ?_⟩
  funext x
  simp [deficit]

theorem exprGives_imbalance (h : N.StoredIn fb) (v : String) : ExprGives fb.knowledgeBase
    (.sub (.sum (edgesInto "U" (.const (.text v))) (flow (variableTerm "U") (.const (.text v))))
      (.sum (edgesOutOf "W" (.const (.text v))) (flow (.const (.text v)) (variableTerm "W"))))
    (imbalance N v) := by
  refine ⟨_, _, summands_imbalance _,
    .cons (summandGives_into h "U" v 1) (.cons (summandGives_outOf h "W" v (-1)) .nil), ?_⟩
  funext x
  simp [imbalance, sub_eq_add_neg]

/-- The edges answer their query. -/
theorem answers_allEdges (h : N.StoredIn fb) : Lists (fb.answers (allEdges : Query ℚ).symbols
    allEdges.formula) N.edges fun e => [.text e.1, .text e.2] := lists_allEdges h []

/-- The inner nodes answer their query. -/
theorem answers_innerNodes (h : N.StoredIn fb) (hne : source ≠ sink) :
    Lists (fb.answers (innerNodes source sink : Query ℚ).symbols (innerNodes source sink).formula)
      (N.inner source sink) fun v => [.text v] := lists_innerNodes h hne

/-- The decision variables of the objective are declared. -/
theorem declared_objective (source sink : String) :
    ∀ e ∈ (model source sink : Model ℚ).objective, e.Declared (model source sink) := by
  rintro _ ⟨rfl⟩
  exact declared_of_summands (summands_intoSink sink)
    (List.forall_mem_singleton.mpr template_of_flowSummand)

/-- The decision variables of all instances of the constraints are declared. -/
theorem declared_constraints (h : N.StoredIn fb) (hne : source ≠ sink) :
    ∀ c ∈ (model source sink : Model ℚ).constraints,
      c.Declared fb.knowledgeBase (model source sink) := by
  refine List.forall_mem_cons.mpr ⟨declared_of_lists _ (answers_allEdges h) fun e _ => ?_,
    List.forall_mem_cons.mpr ⟨declared_of_lists _ (answers_allEdges h) fun e _ => ?_,
      List.forall_mem_singleton.mpr
        (declared_of_lists _ (answers_innerNodes h hne) fun v _ => ?_)⟩⟩
  · exact declared_of_summands (summands_excess (.const (.text e.1)) (.const (.text e.2)))
      (List.forall_mem_cons.mpr ⟨template_of_flowSummand, List.forall_mem_singleton.mpr nofun⟩)
  · exact declared_of_summands (summands_deficit (.const (.text e.1)) (.const (.text e.2)))
      (List.forall_mem_singleton.mpr template_of_flowSummand)
  · exact declared_of_summands (summands_imbalance (.const (.text v)))
      (List.forall_mem_cons.mpr ⟨template_of_flowSummand,
        List.forall_mem_singleton.mpr template_of_flowSummand⟩)

/-- **Grounding the flow model by instances** succeeds over a stored network. -/
theorem exists_grounds_instances (h : N.StoredIn fb) (hne : source ≠ sink) :
    ∃ g, Instances.ground fb.knowledgeBase (model source sink) = .ok g ∧ Grounds N source sink g := by
  have hedges := answers_allEdges h
  have hinner := answers_innerNodes h hne
  obtain ⟨es, hes, hcapacity⟩ := exists_constraintGives_of_lists (withinCapacity : Constraint ℚ).relation
    hedges (fun e he => exprGives_excess h he)
    fun e he => tolerates_of_nonpos rfl (excess_zero_nonpos he)
  obtain ⟨es', hes', hzero⟩ := exists_constraintGives_of_lists (notNegative : Constraint ℚ).relation
    hedges (fun e _ => exprGives_deficit e) fun e _ => tolerates_of_nonpos rfl neg_zero.le
  obtain ⟨vs, hvs, hbalance⟩ := exists_constraintGives_of_lists
    (passedOn source sink : Constraint ℚ).relation hinner (fun v _ => exprGives_imbalance h v)
    fun v _ => (imbalance_zero N v).symm ▸ tolerates_zero _
  have harrived : ObjectiveGives fb.knowledgeBase (model source sink).objective (arrived N sink) :=
    exprGives_intoSink h sink
  obtain ⟨ctx, hground, hcollects⟩ := Instances.exists_ground_of_gives harrived
    (declared_objective source sink) (.cons hcapacity (.cons hzero (.cons hbalance .nil)))
    (declared_constraints h hne)
  exact ⟨_, hground, ctx, _, _, rfl, hcollects, List.forall₂_same.mpr fun Fs _ => .refl _,
    es, es', vs, hes, hes', hvs, rfl⟩

end

/-! ### By blocks -/

section

open Blocks

/-- The cells of the ends of an edge. -/
def endsRow (e : String × String) : Tuple ℚ := [.text e.1, .text e.2]

theorem endsRow_injective : Function.Injective endsRow := by
  intro e e' h
  obtain ⟨hsource, htarget⟩ : e.1 = e'.1 ∧ e.2 = e'.2 := by simpa [endsRow] using h
  exact Prod.ext hsource htarget

/-- The edges into the sink. -/
theorem spreadsOver_intoSink (h : N.StoredIn fb) (source sink : String) :
    SpreadsOver (model source sink) fb .always (flowSummand (variableTerm "X") (.const (.text sink))
        (some (edgesInto "X" (.const (.text sink)))) 1)
      {e ∈ N.edges | e.2 = sink} (fun e => [.text e.1]) flowAtom where
  plain := rfl
  symbols_eq := rfl
  lists := lists_edgesInto h "X" sink [.real 1]
  decision := by
    refine ⟨_, rfl, rfl, fun e he => ?_⟩
    obtain ⟨-, rfl⟩ := Finset.mem_filter.mp he
    exact groundAt_flow rfl rfl

/-- All edges. -/
theorem spreadsOver_allEdges (h : N.StoredIn fb) (source sink : String) (c : ℚ) :
    SpreadsOver (model source sink) fb allEdges (flowSummand (variableTerm "X") (variableTerm "Y") none c)
      N.edges endsRow flowAtom where
  plain := rfl
  symbols_eq := rfl
  lists := lists_allEdges h [.real c]
  decision := ⟨_, rfl, rfl, fun _ _ => groundAt_flow rfl rfl⟩

theorem formula_conjoin_edge (hne : source ≠ sink) {q : Query ℚ} {t u : Term ℚ}
    (hq : q.formula = .atom (edgeAtom t u)) : ((innerNodes source sink).conjoin q).formula
      = .conj (innerParts source sink ++ [.atom (edgeAtom t u)]) :=
  (congrArg (fun f => (Formula.conj [_, f]).simplify) hq).trans (simplify_innerParts_edge hne t u)

/-- The edges into inner nodes. -/
theorem spreadsOver_innerInto (h : N.StoredIn fb) (hne : source ≠ sink) (c : ℚ) :
    SpreadsOver (model source sink) fb (innerNodes source sink) (flowSummand (variableTerm "U")
        (variableTerm "V") (some (edgesInto "U" (variableTerm "V"))) c)
      {e ∈ N.edges | e.2 ∈ N.inner source sink} (fun e => [.text e.2, .text e.1]) flowAtom where
  plain := rfl
  symbols_eq := rfl
  lists := by
    -- the condition on the edge is spliced into the conditions on the node
    rw [formula_conjoin_edge hne rfl]
    exact lists_innerInto h hne [.real c]
  decision := ⟨_, rfl, rfl, fun _ _ => groundAt_flow rfl rfl⟩

/-- The edges out of inner nodes. -/
theorem spreadsOver_innerOutOf (h : N.StoredIn fb) (hne : source ≠ sink) (c : ℚ) :
    SpreadsOver (model source sink) fb (innerNodes source sink) (flowSummand (variableTerm "V")
        (variableTerm "W") (some (edgesOutOf "W" (variableTerm "V"))) c)
      {e ∈ N.edges | e.1 ∈ N.inner source sink} (fun e => [.text e.1, .text e.2]) flowAtom where
  plain := rfl
  symbols_eq := rfl
  lists := by
    rw [formula_conjoin_edge hne rfl]
    exact lists_innerOutOf h hne [.real c]
  decision := ⟨_, rfl, rfl, fun _ _ => groundAt_flow rfl rfl⟩

/-- The flows along all edges. -/
theorem summandGives_flows (h : N.StoredIn fb) (source sink : String) (c : ℚ) :
    SummandGives (model source sink) fb allEdges (N.edges.toList.map endsRow)
      (flowSummand (variableTerm "X") (variableTerm "Y") none c)
      fun t x => ∑ e ∈ N.edges with (endsRow e).take 2 = t, c * carried x e :=
  (spreadsOver_allEdges h source sink c).summandGives rfl fun _ he =>
    List.mem_map_of_mem (f := endsRow) (Finset.mem_toList.mpr he)

/-- A capacity is replaced by a value symbol. -/
theorem ofSummand_capacity (next : ℕ) : (SplitSummand.ofSummand next
      (capacitySummand (variableTerm "X") (variableTerm "Y") (-1))).1
    = ⟨none, .ofSymbols [] (.atom (capAtom (variableTerm "X") (variableTerm "Y")
        (.var (SplitSummand.valueSymbol next)))), .always,
      .mul [.constant (-1), .symbol (SplitSummand.valueSymbol next)], 1⟩ := rfl

theorem allEdges_conjoin_capAtom (v : Symbol) : (allEdges (K := ℚ)).conjoin
      (.ofSymbols [] (.atom (capAtom (variableTerm "X") (variableTerm "Y") (.var v))))
    = .ofSymbols [⟨"X"⟩, ⟨"Y"⟩] (.conj [.atom (edgeAtom (variableTerm "X") (variableTerm "Y")),
      .atom (capAtom (variableTerm "X") (variableTerm "Y") (.var v))]) := rfl

/-- The bulk query of the capacities lists all edges. -/
theorem exists_runs_capacities (h : N.StoredIn fb) (next : ℕ) :
    ∃ xs : List (String × String), xs.Nodup ∧ xs.toFinset = N.edges
      ∧ ∀ ctx, GroundM.Runs (rows fb.knowledgeBase allEdges (SplitSummand.ofSummand next
        (capacitySummand (variableTerm "X") (variableTerm "Y") (-1))).1) ctx
          ([⟨"X"⟩, ⟨"Y"⟩], xs.map fun e => (endsRow e, -N.capacity e)) ctx := by
  -- the capacities neither add nor drop an edge, since each edge has one
  have hbase : Lists (fb.answers ((allEdges (K := ℚ)).conjoin .always).symbols
      (allEdges.conjoin .always).formula) N.edges endsRow := answers_allEdges h
  rw [ofSummand_capacity]
  refine exists_runs_rows_of_lists Nat.one_pos endsRow_injective.injOn ?_ hbase
  rw [allEdges_conjoin_capAtom]
  exact lists_capacities h (valueSymbol_ne next (by decide)) (valueSymbol_ne next (by decide))

/-- The capacities of all edges. -/
theorem summandGives_capacities (h : N.StoredIn fb) (source sink : String) :
    SummandGives (model source sink) fb allEdges (N.edges.toList.map endsRow)
      (capacitySummand (variableTerm "X") (variableTerm "Y") (-1))
      fun t _ => ∑ e ∈ N.edges with (endsRow e).take 2 = t, -N.capacity e := by
  intro next
  obtain ⟨xs, hxs, hedges, hruns⟩ := exists_runs_capacities h next
  have hquantity : ∀ e ∈ xs, answerQuantity fb allEdges (capacitySummand (variableTerm "X")
      (variableTerm "Y") (-1)) (endsRow e, -N.capacity e) = fun _ => -N.capacity e :=
    fun e _ => funext fun _ => mul_one _
  rw [← hedges]
  refine ⟨_, ⟨hruns, nofun, nofun⟩, List.forall_mem_map.mpr fun e he => ?_,
    (keyedQuantity_map hxs hquantity).symm⟩
  exact List.mem_map_of_mem (Finset.mem_toList.mpr (List.mem_toFinset.mpr he))

/-- The flows into the inner nodes. -/
theorem summandGives_innerInto (h : N.StoredIn fb) (hne : source ≠ sink) (c : ℚ) :
    SummandGives (model source sink) fb (innerNodes source sink)
      ((N.inner source sink).toList.map fun v => [.text v])
      (flowSummand (variableTerm "U") (variableTerm "V") (some (edgesInto "U" (variableTerm "V"))) c)
      fun t x => ∑ e ∈ {e ∈ N.edges | e.2 ∈ N.inner source sink}
        with ([.text e.2, .text e.1] : Tuple ℚ).take 1 = t, c * carried x e :=
  (spreadsOver_innerInto h hne c).summandGives rfl fun e he => List.mem_map.mpr
    ⟨e.2, Finset.mem_toList.mpr (Finset.mem_filter.mp he).2, rfl⟩

/-- The flows out of the inner nodes. -/
theorem summandGives_innerOutOf (h : N.StoredIn fb) (hne : source ≠ sink) (c : ℚ) :
    SummandGives (model source sink) fb (innerNodes source sink)
      ((N.inner source sink).toList.map fun v => [.text v])
      (flowSummand (variableTerm "V") (variableTerm "W") (some (edgesOutOf "W" (variableTerm "V"))) c)
      fun t x => ∑ e ∈ {e ∈ N.edges | e.1 ∈ N.inner source sink}
        with ([.text e.1, .text e.2] : Tuple ℚ).take 1 = t, c * carried x e :=
  (spreadsOver_innerOutOf h hne c).summandGives rfl fun e he => List.mem_map.mpr
    ⟨e.1, Finset.mem_toList.mpr (Finset.mem_filter.mp he).2, rfl⟩

/-! #### Constraints -/

/-- An edge is the only one with its ends. -/
theorem filter_endsRow {e : String × String} (he : e ∈ N.edges) :
    {e' ∈ N.edges | (endsRow e').take 2 = endsRow e} = {e} := by
  refine Finset.eq_singleton_iff_unique_mem.mpr ⟨Finset.mem_filter.mpr ⟨he, rfl⟩, fun e' he' => ?_⟩
  exact endsRow_injective (Finset.mem_filter.mp he').2

/-- The edges with an end at an inner node are those whose row begins with it. -/
theorem filter_inner (near far : String × String → String) {v : String}
    (hv : v ∈ N.inner source sink) :
    {e ∈ {e ∈ N.edges | near e ∈ N.inner source sink} |
      ([.text (near e), .text (far e)] : Tuple ℚ).take 1 = [.text v]} = {e ∈ N.edges | near e = v} := by
  rw [Finset.filter_filter]
  refine Finset.filter_congr fun e _ => ⟨fun he => by simpa using he.2, ?_⟩
  rintro rfl
  exact ⟨hv, rfl⟩

theorem constraintGives_withinCapacity (h : N.StoredIn fb) (source sink : String) :
    ConstraintGives (model source sink) fb withinCapacity (N.edges.toList.map (excess N)) := by
  refine constraintGives_of_keys endsRow_injective.injOn (summands_excess _ _)
    (.cons (summandGives_flows h source sink 1) (.cons (summandGives_capacities h source sink) .nil))
    (fun e he => ?_) fun e he => tolerates_of_nonpos rfl (excess_zero_nonpos he)
  funext x
  simp [filter_endsRow he, excess, sub_eq_add_neg]

theorem constraintGives_notNegative (h : N.StoredIn fb) (source sink : String) :
    ConstraintGives (model source sink) fb notNegative (N.edges.toList.map deficit) := by
  refine constraintGives_of_keys endsRow_injective.injOn (summands_deficit _ _)
    (.cons (summandGives_flows h source sink (-1)) .nil) (fun e he => ?_)
    fun e _ => tolerates_of_nonpos rfl neg_zero.le
  funext x
  simp [filter_endsRow he, deficit]

theorem constraintGives_passedOn (h : N.StoredIn fb) (hne : source ≠ sink) :
    ConstraintGives (model source sink) fb (passedOn source sink)
      ((N.inner source sink).toList.map (imbalance N)) := by
  have hkey : Function.Injective fun v => ([.text v] : Tuple ℚ) :=
    fun _ _ heq => Constant.text.inj (List.cons.inj heq).1
  refine constraintGives_of_keys hkey.injOn (summands_imbalance _)
    (.cons (summandGives_innerInto h hne 1) (.cons (summandGives_innerOutOf h hne (-1)) .nil))
    (fun v hv => ?_) fun v _ => (imbalance_zero N v).symm ▸ tolerates_zero _
  funext x
  rw [List.sum_cons, List.sum_cons, List.sum_nil, add_zero, Pi.add_apply, Pi.add_apply,
    filter_inner Prod.snd Prod.fst hv, filter_inner Prod.fst Prod.snd hv, imbalance, Network.inflow,
    Network.outflow, ← Finset.mul_sum, ← Finset.mul_sum, one_mul, neg_one_mul, sub_eq_add_neg]

/-- **Grounding the flow model by blocks** succeeds over a stored network. -/
theorem exists_grounds_blocks (h : N.StoredIn fb) (hne : source ≠ sink) :
    ∃ g, Blocks.ground fb.knowledgeBase (model source sink) = .ok g ∧ Grounds N source sink g := by
  have hobjective : ObjectiveGives (model source sink) fb (model source sink).objective
      (arrived N sink) := by
    refine ⟨_, _, summands_intoSink sink, .cons (spreadsOver_intoSink h source sink).amountsTo .nil, ?_⟩
    funext x
    simp [arrived, flowSummand, Network.inflow, carried]
  obtain ⟨ctx, Fss', hground, hcollects, hsame⟩ := Blocks.exists_ground_of_gives hobjective
    (.cons (constraintGives_withinCapacity h source sink)
      (.cons (constraintGives_notNegative h source sink)
        (.cons (constraintGives_passedOn h hne) .nil)))
  exact ⟨_, hground, ctx, _, Fss', rfl, hcollects, hsame, _, _, _, N.edges.toList_toFinset,
    N.edges.toList_toFinset, (N.inner source sink).toList_toFinset, rfl⟩

end

end Flow

end RelationalLP
