import Mathlib
import RelationalLP.Proofs.Expr.Substitution
import RelationalLP.Proofs.Expr.ValuePreservation
import RelationalLP.Proofs.Grounding.FinishedProgram
import RelationalLP.Proofs.Grounding.InstanceRows

/-! # Grounding by instances means evaluation

Let decision variables have values, and let a knowledge base answer everything else. The evaluator then
gives a value to every instance of a constraint, and the program grounded by instances has exactly these
values as left sides minus right sides: one row for each instance whose value depends on the decision
variables, in order. -/

namespace RelationalLP

/-! ### Evaluation with decision variables -/

/-- Evaluates decision variables by an assignment, and everything else by asking a knowledge base. -/
def KnowledgeBase.withDecisions (kb : KnowledgeBase ℚ Id) (v : Atom ℚ → ℚ) : Interpretation ℚ Id where
  value a := if a.isDecision then pure (v a) else kb.interpretation.value a
  answers := kb.interpretation.answers

namespace Expr

/-- The value of the normal form of an expression without free symbols. -/
def normalValue (i : Interpretation ℚ Id) (e : Expr ℚ) : ExceptT ExprError Id ℚ := do
  (← liftExcept e.normalize).evaluate i .empty

/-- The value of the part of the normal form that is free of decision variables. -/
def decisionFreeValue (i : Interpretation ℚ Id) (e : Expr ℚ) : ExceptT ExprError Id ℚ := do
  let summands ← liftExcept e.summands
  (ofSummands (summands.filter (·.decision?.isNone))).evaluate i .empty

end Expr

namespace Instances

variable {kb : KnowledgeBase ℚ Id} {v : Atom ℚ → ℚ} {b : Binding ℚ} {s : Summand ℚ} {F : Quantity}

/-- The value of a ground atom that is no decision variable is asked for. -/
theorem withDecisions_value {g : Atom ℚ} (hg : g.isDecision = false) {q : ℚ}
    (hq : kb.askFact g = .ok (some q)) : (kb.withDecisions v).value g = .ok q := by
  have hvalue : (kb.withDecisions v).value g = kb.interpretation.value g :=
    if_neg (by rw [hg]; exact Bool.false_ne_true)
  rw [hvalue]
  refine exceptT_bind_eq_ok_iff.mpr ⟨some q, ?_, rfl⟩
  rw [hq]
  rfl

/-- A factor evaluates to the number that it is given. -/
theorem evaluate_of_factorGives {f : Factor ℚ} {q : ℚ} (hf : f.IsNumeric)
    (h : FactorGives kb b f q) : f.toExpr.evaluate (kb.withDecisions v) b = .ok q := by
  cases h with
  | symbol h => exact liftExcept_eq_ok_iff.mpr (Expr.symbolValue_eq_ok_iff.mpr h)
  | @atom a g q hdecision hg hq =>
    have hkind : g.isDecision = false := by
      rw [Atom.isDecision, Atom.template_of_groundAt hg]
      exact hdecision
    exact exceptT_bind_eq_ok_iff.mpr ⟨g, liftExcept_eq_ok_iff.mpr
      (Expr.groundAtom_eq_ok_iff.mpr ⟨hf, hg⟩), withDecisions_value hkind hq⟩

/-- A decision variable evaluates to its value. -/
theorem evaluate_decision {a g : Atom ℚ} (hdecision : a.isDecision = true)
    (hkind : a.template.isBoolean = false) (hg : a.groundAt b.get? = some g) :
    (Expr.atom a).evaluate (kb.withDecisions v) b = .ok (v g) := by
  have hg' : g.isDecision = true := by
    rw [Atom.isDecision, Atom.template_of_groundAt hg]
    exact hdecision
  have hvalue : (kb.withDecisions v).value g = pure (v g) := if_pos hg'
  exact exceptT_bind_eq_ok_iff.mpr
    ⟨g, liftExcept_eq_ok_iff.mpr (Expr.groundAtom_eq_ok_iff.mpr ⟨hkind, hg⟩), hvalue⟩

/-- The decision variable of a linear summand evaluates to the quantity that it is given. -/
theorem evaluate_of_decisionGives (hs : s.Linear) {D : Quantity} (hD : DecisionGives b s.decision? D)
    {f : Factor ℚ} (hf : f ∈ s.factors) {a : Atom ℚ} (ha : f.decision? = some a) :
    f.toExpr.evaluate (kb.withDecisions v) b = .ok (D v) := by
  have hkind := hs.numeric f hf
  have hsome := hs.decision?_eq_some hf ha
  obtain ⟨rfl, hdec⟩ := Factor.decision?_eq_some_iff.mp ha
  rw [hsome] at hD
  cases hD with
  | some hg => exact evaluate_decision hdec hkind hg

/-- The value of a factor, zero where it has none. -/
def factorValueOr (kb : KnowledgeBase ℚ Id) (v : Atom ℚ → ℚ) (b : Binding ℚ) (f : Factor ℚ) : ℚ :=
  (f.toExpr.evaluate (kb.withDecisions v) b).toOption.getD 0

theorem factorValueOr_eq {f : Factor ℚ} {q : ℚ}
    (h : f.toExpr.evaluate (kb.withDecisions v) b = .ok q) : factorValueOr kb v b f = q := by
  rw [factorValueOr, h]
  rfl

/-- **A product evaluates to the quantity that it is given.** -/
theorem evaluate_of_productGives (hs : s.Linear) (h : ProductGives kb s b F) :
    s.termExpr.evaluate (kb.withDecisions v) b = .ok (F v) := by
  obtain ⟨qs, D, hqs, hD, rfl⟩ := h
  have hplain : ∀ f ∈ s.plainFactors, ∀ q, FactorGives kb b f q →
      f.toExpr.evaluate (kb.withDecisions v) b = .ok q := fun f hf q hq =>
    evaluate_of_factorGives (hs.numeric f (List.mem_of_mem_filter hf)) hq
  -- the decision variable has the quantity that it is given, the other factors their numbers
  have hall : ∀ f ∈ s.factors,
      f.toExpr.evaluate (kb.withDecisions v) b = .ok (factorValueOr kb v b f) := by
    intro f hf
    cases hd : f.decision? with
    | some a =>
      have heval : f.toExpr.evaluate (kb.withDecisions v) b = .ok (D v) :=
        evaluate_of_decisionGives hs hD hf hd
      rw [factorValueOr_eq heval, heval]
    | none =>
      have hmem : f ∈ s.plainFactors := List.mem_filter.mpr ⟨hf, by rw [hd]; rfl⟩
      obtain ⟨q, -, hq⟩ := exists_of_forall₂_left hqs hmem
      rw [factorValueOr_eq (hplain f hmem q hq), hplain f hmem q hq]
  have hprod : qs.prod = (s.plainFactors.map (factorValueOr kb v b)).prod := congrArg List.prod
    (eq_map_of_forall₂ hqs fun f hf q hq => (factorValueOr_eq (hplain f hf q hq)).symm)
  -- a product without a decision variable has the quantity one for it
  have hlast : ((s.decision?.map fun a => factorValueOr kb v b (.atom a)).getD 1) = D v := by
    cases hd : s.decision? with
    | none =>
      rw [hd] at hD
      cases hD
      rfl
    | some a =>
      obtain ⟨f, hf, ha⟩ := List.exists_of_findSome?_eq_some hd
      obtain ⟨rfl, -⟩ := Factor.decision?_eq_some_iff.mp ha
      exact factorValueOr_eq (evaluate_of_decisionGives hs hD hf ha)
  rw [Expr.evaluate_termExpr_of_factors hall, Summand.prod_factors_eq_mul _ hs.decisions,
    ← mul_assoc]
  simp only [hprod, ← hlast]
  rfl

/-- A product without decision variable does not vary. -/
theorem ProductGives.apply_eq (h : ProductGives kb s b F) (hd : s.decision? = none) : F v = F 0 := by
  obtain ⟨qs, D, -, hD, rfl⟩ := h
  rw [hd] at hD
  cases hD
  rfl

/-- A product with a decision variable is zero where the decision variables are. -/
theorem ProductGives.apply_zero (h : ProductGives kb s b F) (hd : s.decision? ≠ none) : F 0 = 0 := by
  obtain ⟨qs, D, -, hD, rfl⟩ := h
  cases hdecision : s.decision? with
  | none => exact absurd hdecision hd
  | some a =>
    rw [hdecision] at hD
    cases hD
    exact mul_zero _

/-! ### Summands and expressions -/

/-- **A summand evaluates to the quantity that it is given.** -/
theorem evaluate_of_summandGives (hs : s.Linear) (h : SummandGives kb s F) :
    s.toExpr.evaluate (kb.withDecisions v) .empty = .ok (F v) := by
  obtain ⟨bs, Fs, hbs, hFs, rfl⟩ := h
  cases hq : s.query with
  | none =>
    -- without a query there is one empty binding
    rw [hq] at hbs
    obtain rfl : [.empty] = bs := Except.ok.inj hbs
    obtain ⟨F, rest, hF, hrest, rfl⟩ := List.forall₂_cons_left_iff.mp hFs
    obtain rfl := List.forall₂_nil_left_iff.mp hrest
    have hsum : ([F].map (· v)).sum = F v := List.sum_singleton
    rw [Summand.toExpr, hq]
    exact (evaluate_of_productGives hs hF).trans (congrArg Except.ok hsum.symm)
  | some q =>
    -- the bindings are read from the answers, which the evaluation asks for, too
    rw [hq] at hbs
    obtain ⟨ts, hask, heq⟩ := exceptT_bind_eq_ok_iff.mp hbs
    obtain rfl : ts.map (Binding.ofAnswer q.symbols) = bs := Except.ok.inj heq
    rw [List.forall₂_map_left_iff] at hFs
    have hanswers : (kb.withDecisions v).answers (q.substitute .empty).symbols
        (q.substitute .empty).formula = .ok ts := by
      rw [q.substitute_empty]
      exact withError_eq_ok_iff.mpr hask
    have hvalues : List.Forall₂ (fun t q' => s.termExpr.evaluate (kb.withDecisions v)
        (Binding.empty.extend q.symbols t) = .ok q') ts (Fs.map (· v)) := by
      rw [List.forall₂_map_right_iff]
      exact hFs.imp fun t F hF => evaluate_of_productGives hs hF
    have hsum := Expr.foldlM_add_of_forall₂ (a := 0) hvalues
    rw [zero_add] at hsum
    rw [Summand.toExpr, hq]
    exact exceptT_bind_eq_ok_iff.mpr ⟨ts, hanswers, hsum⟩

/-- Summands evaluate to the quantities that they are given. -/
theorem evaluate_of_summandsGive {ss : List (Summand ℚ)} {Fs : List Quantity}
    (hs : ∀ s ∈ ss, s.Linear) (h : List.Forall₂ (SummandGives kb) ss Fs) :
    (Expr.ofSummands ss).evaluate (kb.withDecisions v) .empty = .ok (Fs.map (· v)).sum := by
  refine Expr.evaluate_ofSummands ?_
  rw [List.forall₂_map_left_iff, List.forall₂_map_right_iff]
  induction h with
  | nil => exact .nil
  | cons hF _ ih =>
    obtain ⟨hs, hss⟩ := List.forall_mem_cons.mp hs
    exact .cons (evaluate_of_summandGives hs hF) (ih hss)

/-- **An expression has a normal form, which evaluates to the quantity that it is given.** -/
theorem normalValue_of_exprGives {e : Expr ℚ} (h : ExprGives kb e F) :
    e.normalValue (kb.withDecisions v) = .ok (F v) := by
  obtain ⟨ss, Fs, hss, hFs, rfl⟩ := h
  have hnormal : e.normalize = .ok (Expr.ofSummands ss) := by
    rw [Expr.normalize, hss]
    rfl
  exact exceptT_bind_eq_ok_iff.mpr ⟨_, liftExcept_eq_ok_iff.mpr hnormal,
    evaluate_of_summandsGive (Expr.linear_of_summands hss) hFs⟩

theorem SummandGives.apply_eq (h : SummandGives kb s F) (hd : s.decision? = none) : F v = F 0 := by
  obtain ⟨bs, Fs, -, hFs, rfl⟩ := h
  refine congrArg List.sum (List.map_congr_left fun F hF => ?_)
  obtain ⟨b, -, hb⟩ := exists_of_forall₂_right hFs hF
  exact hb.apply_eq hd

theorem SummandGives.apply_zero (h : SummandGives kb s F) (hd : s.decision? ≠ none) : F 0 = 0 := by
  obtain ⟨bs, Fs, -, hFs, rfl⟩ := h
  refine List.sum_eq_zero (List.forall_mem_map.mpr fun F hF => ?_)
  obtain ⟨b, -, hb⟩ := exists_of_forall₂_right hFs hF
  exact hb.apply_zero hd

/-- The summands without decision variables are given what does not vary. -/
theorem exists_decisionFree {ss : List (Summand ℚ)} {Fs : List Quantity}
    (h : List.Forall₂ (SummandGives kb) ss Fs) (v : Atom ℚ → ℚ) :
    ∃ Gs, List.Forall₂ (SummandGives kb) (ss.filter (·.decision?.isNone)) Gs
      ∧ (Gs.map (· v)).sum = (Fs.map (· 0)).sum := by
  induction h with
  | nil => exact ⟨[], .nil, rfl⟩
  | @cons s F ss Fs hF _ ih =>
    obtain ⟨Gs, hGs, hsum⟩ := ih
    cases hd : s.decision? with
    | none =>
      rw [List.filter_cons_of_pos (by rw [hd]; rfl)]
      refine ⟨F :: Gs, .cons hF hGs, ?_⟩
      rw [List.map_cons, List.map_cons, List.sum_cons, List.sum_cons, hsum, hF.apply_eq hd]
    | some a =>
      rw [List.filter_cons_of_neg (by rw [hd]; exact Bool.false_ne_true)]
      refine ⟨Gs, hGs, ?_⟩
      rw [List.map_cons, List.sum_cons, hsum, hF.apply_zero (by rw [hd]; exact nofun), zero_add]

/-- **The part that is free of decision variables** evaluates to the quantity at zero. -/
theorem decisionFreeValue_of_exprGives {e : Expr ℚ} (h : ExprGives kb e F) :
    e.decisionFreeValue (kb.withDecisions v) = .ok (F 0) := by
  obtain ⟨ss, Fs, hss, hFs, rfl⟩ := h
  obtain ⟨Gs, hGs, hsum⟩ := exists_decisionFree hFs v
  refine exceptT_bind_eq_ok_iff.mpr ⟨ss, liftExcept_eq_ok_iff.mpr hss, ?_⟩
  have hvalue := evaluate_of_summandsGive (v := v)
    (fun s hs => Expr.linear_of_summands hss s (List.mem_of_mem_filter hs)) hGs
  rwa [hsum] at hvalue

end Instances

/-! ### Instances -/

/-- An instance of a constraint: its relation under one binding. -/
structure Instance where
  /-- The constraint. -/
  constraint : Constraint ℚ
  /-- The binding of the symbols of its query. -/
  binding : Binding ℚ

namespace Instance

/-- The expression that is compared with zero. -/
def expression (i : Instance) : Expr ℚ := i.constraint.relation.canonical.substitute i.binding

/-- The value of the normal form of an instance, with the values of the decision variables. -/
def evaluate (kb : KnowledgeBase ℚ Id) (v : Atom ℚ → ℚ) (i : Instance) : ExceptT ExprError Id ℚ :=
  i.expression.normalValue (kb.withDecisions v)

/-- The quantity of the values of an instance, zero where it has none. -/
def value (kb : KnowledgeBase ℚ Id) (i : Instance) : Quantity := fun v =>
  match i.evaluate kb v with
  | .ok q => q
  | .error _ => 0

/-- An instance becomes a row of a kind when its value depends on the decision variables. -/
def IsRow (kb : KnowledgeBase ℚ Id) (isEquality : Bool) (i : Instance) : Prop :=
  i.constraint.relation.isEquality = isEquality ∧ (i.value kb).Varies

noncomputable instance (kb : KnowledgeBase ℚ Id) (isEquality : Bool) :
    DecidablePred (IsRow kb isEquality) := fun _ => inferInstanceAs (Decidable (_ ∧ _))

end Instance

/-- The instances of some constraints in order: one for each answer of the query of a constraint, in the
order of the answers. -/
def KnowledgeBase.instances (kb : KnowledgeBase ℚ Id) :
    List (Constraint ℚ) → ExceptT KbError Id (List Instance)
  | [] => pure []
  | c :: cs => do
    let first ← kb.bindings c.query?
    let rest ← kb.instances cs
    return first.map (⟨c, ·⟩) ++ rest

namespace Instances

variable {kb : KnowledgeBase ℚ Id}

/-- **The instances of a model**: all of them have values, and the rows that they are given are those
whose values vary. -/
theorem exists_instances {cs : List (Constraint ℚ)} {Fss : List (List Quantity)}
    (h : List.Forall₂ (ConstraintGives kb) cs Fss) :
    ∃ is, kb.instances cs = .ok is
      ∧ (∀ i ∈ is, (∀ v, i.evaluate kb v = .ok (i.value kb v))
        ∧ (¬ (i.value kb).Varies → ∀ v, i.constraint.relation.Tolerates (i.value kb v)))
      ∧ ∀ e, (List.zipWith (fun c Fs => Fs.filter fun F : Quantity =>
          c.relation.isEquality = e ∧ F.Varies) cs Fss).flatten
        = (is.filter (Instance.IsRow kb e)).map (Instance.value kb) := by
  induction h with
  | nil => exact ⟨[], rfl, fun i hi => absurd hi List.not_mem_nil, fun e => rfl⟩
  | @cons c Fs cs Fss hc _ ih =>
    obtain ⟨bs, hbs, hFs⟩ := hc
    obtain ⟨is, his, hvalues, hrows⟩ := ih
    -- an instance evaluates to the quantity that it is given, so this is its value
    have hvalue : ∀ b F, ExprGives kb (c.relation.canonical.substitute b) F →
        (∀ v, (⟨c, b⟩ : Instance).evaluate kb v = .ok (F v)) ∧ (⟨c, b⟩ : Instance).value kb = F := by
      intro b F hF
      have heval : ∀ v, (⟨c, b⟩ : Instance).evaluate kb v = .ok (F v) := fun v =>
        normalValue_of_exprGives hF
      refine ⟨heval, funext fun v => ?_⟩
      rw [Instance.value, heval]
    have hmap : Fs = bs.map fun b => (⟨c, b⟩ : Instance).value kb :=
      eq_map_of_forall₂ hFs fun b _ F hF => (hvalue b F hF.1).2.symm
    refine ⟨bs.map (⟨c, ·⟩) ++ is, exceptT_bind_eq_ok_iff.mpr ⟨bs, hbs,
      exceptT_bind_eq_ok_iff.mpr ⟨is, his, rfl⟩⟩, ?_, fun e => ?_⟩
    · refine List.forall_mem_append.mpr ⟨List.forall_mem_map.mpr fun b hb => ?_, hvalues⟩
      obtain ⟨F, -, hF, hholds⟩ := exists_of_forall₂_left hFs hb
      obtain ⟨heval, hvalue⟩ := hvalue b F hF
      rw [hvalue]
      -- a constant quantity is the same at every assignment, and was checked at zero
      refine ⟨heval, fun hconstant v => ?_⟩
      rw [not_exists.mp hconstant v |> not_not.mp]
      exact hholds hconstant
    · rw [List.filter_append, List.map_append, ← hrows, List.zipWith_cons_cons, List.flatten_cons,
        hmap, List.filter_map, List.filter_map, List.map_map]
      rfl

/-- The value of an objective, zero without one. -/
def objectiveValue (i : Interpretation ℚ Id) : Option (Expr ℚ) → ExceptT ExprError Id ℚ
  | none => pure 0
  | some e => e.normalValue i

/-- The value of the part of an objective that is free of decision variables. -/
def objectiveFreeValue (i : Interpretation ℚ Id) : Option (Expr ℚ) → ExceptT ExprError Id ℚ
  | none => pure 0
  | some e => e.decisionFreeValue i

theorem objectiveValue_of_gives {e : Option (Expr ℚ)} {F : Quantity} (h : ObjectiveGives kb e F)
    (v : Atom ℚ → ℚ) : objectiveValue (kb.withDecisions v) e = .ok (F v)
      ∧ objectiveFreeValue (kb.withDecisions v) e = .ok (F 0) := by
  cases e with
  | none =>
    obtain rfl : F = fun _ => 0 := h
    exact ⟨rfl, rfl⟩
  | some e => exact ⟨normalValue_of_exprGives h, decisionFreeValue_of_exprGives h⟩

/-- **Grounding by instances means evaluation.** Let a model be grounded with any knowledge base. Every
instance of a constraint then has a value for all values of the decision variables. The left sides minus
the right sides of the program are the values of the instances that depend on the decision variables, in
order and without any other row; an instance that does not depend on them holds up to the tolerance. The
objective is the value of the objective of the model without the part free of decision variables. -/
theorem ground_means_evaluation (kb : KnowledgeBase ℚ Id) (model : Model ℚ) {g : Grounded ℚ}
    (h : ground kb model = .ok g) :
    g.program.WellFormed ∧ ∃ is, kb.instances model.constraints = .ok is
      ∧ (∀ i ∈ is, (∀ v, i.evaluate kb v = .ok (i.value kb v))
        ∧ (¬ (i.value kb).Varies → ∀ v, i.constraint.relation.Tolerates (i.value kb v)))
      ∧ ∀ v, (∃! x, g.Reads v x) ∧ ∀ x, g.Reads v x →
        (∀ e, g.program.residuals e x
          = (is.filter (Instance.IsRow kb e)).map fun i => i.value kb v)
        ∧ ∃ p q, objectiveValue (kb.withDecisions v) model.objective = .ok p
          ∧ objectiveFreeValue (kb.withDecisions v) model.objective = .ok q
          ∧ model.sense.factor * g.program.objective x = p - q := by
  obtain ⟨ctx, F, Fss, rfl, ⟨hconsistent, rfl, hobjective, hquantities⟩, hF, hFss⟩ :=
    exists_of_ground h
  obtain ⟨is, his, hvalues, hrows⟩ := exists_instances hFss
  refine ⟨GroundingContext.wellFormed_finish hconsistent, is, his, hvalues, fun v =>
    ⟨GroundingContext.existsUnique_reads hconsistent.valid v, fun x hx => ⟨fun e => ?_, ?_⟩⟩⟩
  · rw [GroundingContext.residuals_finish hconsistent hx, hquantities, hrows, List.map_map]
    rfl
  · obtain ⟨hp, hq⟩ := objectiveValue_of_gives hF v
    refine ⟨F v, F 0, hp, hq, ?_⟩
    -- the factor is one or minus one, and the program has it already
    have hfactor : (ctx.model.sense.factor : ℚ) * ctx.model.sense.factor = 1 := by
      cases ctx.model.sense <;> norm_num [Sense.factor]
    rw [GroundingContext.objective_finish hconsistent hx, ← mul_assoc, hfactor, one_mul, hobjective]

/-- Two items with their costs; the second one is free. -/
def market : FactBase ℚ where
  facts := [("item", [.text "nut"]), ("item", [.text "gift"]), ("cost", [.text "nut", .real 3]),
    ("cost", [.text "gift", .real 0])]

/-- Minimize `{X | item(X)} cost(X) * buy(X) + 7`, where every item costs at least its cost once, and as
many gifts are bought as nuts. -/
def purchase : Model ℚ :=
  let items : Query ℚ := .ofSymbols [⟨"X"⟩] (.atom ⟨⟨"item", 1, .boolean, false⟩, [.var ⟨"X"⟩]⟩)
  let cost : Expr ℚ := .atom ⟨.ofFacts "cost" 1, [.var ⟨"X"⟩]⟩
  let buy (t : Term ℚ) : Expr ℚ := .atom ⟨⟨"buy", 1, .numeric, true⟩, [t]⟩
  { sense := .minimize
    objective := some (.add [.sum items (.mul [cost, buy (.var ⟨"X"⟩)]), .constant 7])
    constraints := [.forAll items ⟨.mul [cost, buy (.var ⟨"X"⟩)], .ge, cost⟩,
      .single ⟨buy (.const (.text "nut")), .eq, buy (.const (.text "gift"))⟩]
    decision := [⟨"buy", 1, .numeric, true⟩] }

/-- The purchase has three instances. The one of the gift is constant, so that one inequality and one
equation are left, whose left sides minus right sides are values of instances. -/
theorem ground_means_evaluation_purchase :
    ∃ g is, ground market.knowledgeBase purchase = .ok g
      ∧ market.knowledgeBase.instances purchase.constraints = .ok is
      ∧ is.length = 3 ∧ g.program.inequalityCount = 1 ∧ g.program.equationCount = 1
      ∧ ∀ v x, g.Reads v x → ∀ e, g.program.residuals e x
        = (is.filter (Instance.IsRow market.knowledgeBase e)).map fun i =>
          i.value market.knowledgeBase v := by
  have hsize : (ground market.knowledgeBase purchase).run.toOption.map (fun g =>
      (g.program.inequalityCount, g.program.equationCount)) = some (1, 1) := by decide +kernel
  have hcount : (market.knowledgeBase.instances purchase.constraints).run.toOption.map List.length
      = some 3 := by decide +kernel
  obtain ⟨g, hg, hsizes⟩ := exists_eq_ok_of_map_toOption hsize
  obtain ⟨hinequalities, hequations⟩ := Prod.mk.inj hsizes
  obtain ⟨-, is, his, -, hrows⟩ := ground_means_evaluation market.knowledgeBase purchase hg
  rw [his] at hcount
  exact ⟨g, is, hg, his, Option.some.inj hcount, hinequalities, hequations,
    fun v x hx => ((hrows v).2 x hx).1⟩

end Instances

end RelationalLP
