import Mathlib
import RelationalLP.Expr.Evaluate
import RelationalLP.Proofs.Expr.Scoping
import RelationalLP.Proofs.Number.Infinite

/-! # Normalization preserves value

Let an interpretation answer queries from a world: with the tuples of its constants under which the
formula is true. An expression is read twice, once for its value and once for what it asks for, where
everything without a value counts as infinite. An expression that has a value denotes it and is finite;
so its summands are finite, which says that they find everything they ask for, and add up to it. -/

namespace RelationalLP

/-- **An interpretation of a world**: the answers of a query are the tuples of constants under which its
formula is true, each once. -/
structure Interpretation.Lists (i : Interpretation ℚ Id) (w : World) : Prop where
  /-- The answers are listed in some order. -/
  answers : ∀ symbols f, ∃ ts, i.answers symbols f = .ok ts ∧ ts.Nodup ∧ ∀ t, t ∈ ts ↔
    t ∈ w.tuples symbols.length ∧ f.evaluate (.ofAnswer symbols t) w.truthOf = some true

namespace Interpretation

variable (i : Interpretation ℚ Id)

/-- The reading of numbers as themselves. What has no value counts as zero. -/
def values : Reading ℚ where
  coefficient := MonoidHom.id ℚ
  missing := 0
  value a := match i.value a with
    | .ok v => v
    | .error _ => 0

/-- The reading that counts what is asked for. What has no value is infinite. -/
def demands : Reading ℕ∞ where
  coefficient := 1
  missing := ⊤
  value a :=
    if a.template.isBoolean then ⊤
    else match i.value a with
      | .ok _ => 1
      | .error _ => ⊤

end Interpretation

namespace Expr

open Summand

variable {i : Interpretation ℚ Id} {w : World} {b : Binding ℚ}

/-! ### Atoms and symbols -/

/-- An atom of an expression is numeric and has a constant for each variable. -/
theorem groundAtom_eq_ok_iff {a g : Atom ℚ} :
    groundAtom b a = .ok g ↔ a.template.isBoolean = false ∧ a.groundAt b.get? = some g := by
  have hground : (a.substitute b).isGround = true ↔ (a.substitute b).vars = [] := by
    rw [Atom.isGround, Atom.vars, List.filterMap_eq_nil_iff, List.all_eq_true]
    simp only [Option.isNone_iff_eq_none]
  rw [groundAtom, Atom.groundAt_get?]
  cases a.template.isBoolean with
  | true => simp
  | false =>
    simp only [hground, Bool.false_eq_true, if_false, true_and]
    cases (a.substitute b).vars with
    | nil => simp
    | cons s rest => simp

/-- A symbol has a value when it is bound to a number. -/
theorem symbolValue_eq_ok_iff {K : Type} [Scalar K] {b : Binding K} {s : Symbol} {v : K} :
    symbolValue b s = .ok v ↔ (b.get? s).bind Constant.number? = some v := by
  rw [symbolValue]
  cases b.get? s with
  | none => exact iff_of_false nofun nofun
  | some c =>
    simp only [Option.bind_some]
    cases c.number? with
    | none => exact iff_of_false nofun nofun
    | some x => simp

theorem values_symbolValue {c : Option (Constant ℚ)} {v : ℚ}
    (h : c.bind Constant.number? = some v) : i.values.symbolValue c = v := by
  rw [Reading.symbolValue, h]
  rfl

theorem demands_symbolValue {c : Option (Constant ℚ)} :
    i.demands.symbolValue c ≠ ⊤ ↔ ∃ v, c.bind Constant.number? = some v := by
  rw [Reading.symbolValue]
  cases c.bind Constant.number? with
  | none => exact iff_of_false (fun h => h rfl) (by simp)
  | some v => exact iff_of_true (by simp [Interpretation.demands]) ⟨v, rfl⟩

theorem demands_value {a : Atom ℚ} : i.demands.value a ≠ ⊤
    ↔ a.template.isBoolean = false ∧ ∃ v, i.value a = .ok v := by
  simp only [Interpretation.demands]
  cases a.template.isBoolean with
  | true => simp
  | false =>
    simp only [Bool.false_eq_true, if_false, true_and]
    cases i.value a with
    | ok v => exact iff_of_true (by simp) ⟨v, rfl⟩
    | error e => exact iff_of_false (fun h => h rfl) (by simp)

theorem values_value {a : Atom ℚ} {v : ℚ} (h : i.value a = .ok v) : i.values.value a = v := by
  simp only [Interpretation.values, h]

/-! ### Answers -/

/-- Fixing the free variables of a query and binding its symbols is binding them on top. -/
theorem filled_without_ofAnswer {symbols : List Symbol} {tuple : Tuple ℚ}
    (hlen : tuple.length = symbols.length) :
    Valuation.filled (b.without symbols).get? (Binding.ofAnswer symbols tuple).get?
      = Valuation.extend b.get? symbols tuple := by
  rw [Binding.get?_ofAnswer, Valuation.filled_without_extend b hlen, Valuation.filled_unbound]

/-- **The answers of a decided query** are the tuples that make its formula true. -/
theorem answers_substitute (hi : i.Lists w) {q : Query ℚ}
    (hbound : ∀ x ∈ q.formula.occurrences, x ∉ q.symbols → (b.get? x).isSome)
    (hdec : ∀ u, w.Reaches q.symbols b.get? u → q.formula.kleene u w.truthOf ≠ none) :
    ∃ ts, i.answers q.symbols (q.formula.substitute (b.without q.symbols)) = .ok ts
      ∧ w.Listing q.symbols (fun u => q.formula.kleene u w.truthOf = some true) b.get? ts := by
  obtain ⟨ts, hts, hnodup, hmem⟩ := hi.answers q.symbols
    (q.formula.substitute (b.without q.symbols))
  refine ⟨ts, hts, hnodup, fun t => (hmem t).trans (and_congr_right fun ht => ?_)⟩
  obtain ⟨hlen, -⟩ := World.mem_tuples.mp ht
  have hreach := World.reaches_extend q.nodup ht b.get?
  obtain ⟨x, hx⟩ := Option.ne_none_iff_exists'.mp (hdec _ hreach)
  -- after substitution only symbols of the query are left, and the answer binds them
  have hall : ∀ y ∈ (q.formula.substitute (b.without q.symbols)).occurrences,
      ((Binding.ofAnswer q.symbols t).get? y).isSome := by
    intro y hy
    obtain ⟨hocc, hnone⟩ := (Formula.mem_occurrences_substitute q.formula).mp hy
    rw [Binding.get?_without] at hnone
    have hmem : y ∈ q.symbols := by
      by_contra hy
      rw [if_neg hy] at hnone
      have hsome := hbound y hocc hy
      rw [hnone] at hsome
      exact nomatch hsome
    obtain ⟨c, -, hc⟩ := (World.reaches_extend q.nodup ht Binding.empty.get?).binds y hmem
    rw [Binding.ofAnswer, Binding.get?_extend, hc]
    rfl
  have heval : (q.formula.substitute (b.without q.symbols)).evaluate (.ofAnswer q.symbols t)
      w.truthOf = some x := by
    refine Formula.evaluate_of_kleene hall ?_
    rw [Formula.kleene_substitute, filled_without_ofAnswer hlen, hx]
  rw [heval, hx]

section Accumulation

variable {α : Type} {f : α → ExceptT ExprError Id ℚ} {xs : List α} {a r : ℚ}

/-- Adding up succeeds only when every value is there. -/
theorem exists_of_foldlM_add (h : xs.foldlM (fun total x => do return total + (← f x)) a = .ok r) :
    ∀ x ∈ xs, ∃ v, f x = .ok v := by
  induction xs generalizing a with
  | nil => exact nofun
  | cons x xs ih =>
    rw [List.foldlM_cons] at h
    obtain ⟨a', hfirst, hrest⟩ := exceptT_bind_eq_ok_iff.mp h
    obtain ⟨v, hv, -⟩ := exceptT_bind_eq_ok_iff.mp hfirst
    exact List.forall_mem_cons.mpr ⟨⟨v, hv⟩, ih hrest⟩

/-- Values that are there add up to their sum. -/
theorem foldlM_add_of_forall₂ {vs : List ℚ} (h : List.Forall₂ (fun x v => f x = .ok v) xs vs) :
    xs.foldlM (fun total x => do return total + (← f x)) a = .ok (a + vs.sum) := by
  induction h generalizing a with
  | nil => rw [List.sum_nil, add_zero]; rfl
  | @cons x v xs vs hx _ ih =>
    rw [List.foldlM_cons, List.sum_cons, ← add_assoc]
    exact exceptT_bind_eq_ok_iff.mpr ⟨a + v, exceptT_bind_eq_ok_iff.mpr ⟨v, hx, rfl⟩, ih⟩

theorem foldlM_add_eq_ok {g : α → ℚ} (h : ∀ x ∈ xs, f x = .ok (g x)) :
    xs.foldlM (fun total x => do return total + (← f x)) a = .ok (a + (xs.map g).sum) := by
  refine foldlM_add_of_forall₂ ?_
  rw [List.forall₂_map_right_iff, List.forall₂_same]
  exact h

end Accumulation

/-! ### Values are denotations -/

/-- A sum with a value denotes it and is finite, if its body is and does under every answer. -/
theorem denote_sum_of_answers (hi : i.Lists w) {q : Query ℚ} {body : Expr ℚ} {v : ℚ}
    (h : (sum q body).evaluate i b = .ok v)
    (hbound : ∀ x ∈ q.formula.occurrences, x ∉ q.symbols → (b.get? x).isSome)
    (hdec : ∀ u, w.Reaches q.symbols b.get? u → q.formula.kleene u w.truthOf ≠ none)
    (hbody : ∀ t v, w.Reaches q.symbols b.get? (b.extend q.symbols t).get? →
      q.formula.kleene (b.extend q.symbols t).get? w.truthOf = some true →
      body.evaluate i (b.extend q.symbols t) = .ok v →
      body.denote w i.values (b.extend q.symbols t).get? = v
        ∧ body.denote w i.demands (b.extend q.symbols t).get? ≠ ⊤) :
    (sum q body).denote w i.values b.get? = v ∧ (sum q body).denote w i.demands b.get? ≠ ⊤ := by
  obtain ⟨ts, hts, hlist⟩ := answers_substitute hi hbound hdec
  obtain ⟨ts', hts', h⟩ := exceptT_bind_eq_ok_iff.mp h
  obtain rfl : ts = ts' := Except.ok.inj (hts.symm.trans hts')
  -- under each answer the body has a value, since the sum has one
  have hread : ∀ t ∈ ts, body.evaluate i (b.extend q.symbols t)
        = .ok (body.denote w i.values (Valuation.extend b.get? q.symbols t))
      ∧ body.denote w i.demands (Valuation.extend b.get? q.symbols t) ≠ ⊤ := by
    intro t ht
    obtain ⟨x, hx⟩ := exists_of_foldlM_add h t ht
    obtain ⟨htuple, htrue⟩ := (hlist.mem_iff t).mp ht
    have hreach := World.reaches_extend q.nodup htuple b.get?
    rw [← Binding.get?_extend] at htrue hreach ⊢
    obtain ⟨hvalue, hfinite⟩ := hbody t x hreach htrue hx
    exact ⟨hvalue ▸ hx, hfinite⟩
  rw [denote, denote, hlist.total_eq, hlist.total_eq]
  constructor
  · have hsum := foldlM_add_eq_ok (a := 0) fun t ht => (hread t ht).1
    have heq := Except.ok.inj (h.symm.trans hsum)
    rw [heq, zero_add]
  · rw [sum_ne_top_iff, List.forall_mem_map]
    exact fun t ht => (hread t ht).2

mutual

/-- **An expression with a value denotes it and is finite.** -/
theorem denote_of_evaluate (hi : i.Lists w) :
    (e : Expr ℚ) → ∀ {b v}, e.evaluate i b = .ok v → (∀ x ∈ e.freeVars, (b.get? x).isSome) →
      e.Decided w b.get? →
      e.denote w i.values b.get? = v ∧ e.denote w i.demands b.get? ≠ ⊤
  | constant q, b, v, h, _, _ => ⟨Except.ok.inj h, by simp [denote, Interpretation.demands]⟩
  | symbol s, b, v, h, _, _ => by
    have hv := symbolValue_eq_ok_iff.mp (liftExcept_eq_ok_iff.mp h)
    exact ⟨values_symbolValue hv, demands_symbolValue.mpr ⟨v, hv⟩⟩
  | atom a, b, v, h, _, _ => by
    obtain ⟨g, hg, hv⟩ := exceptT_bind_eq_ok_iff.mp h
    obtain ⟨hkind, hg⟩ := groundAtom_eq_ok_iff.mp (liftExcept_eq_ok_iff.mp hg)
    rw [denote, denote, hg]
    refine ⟨values_value hv, demands_value.mpr ⟨?_, v, hv⟩⟩
    rw [Atom.template_of_groundAt hg, hkind]
  | add es, b, v, h, hb, hd => by
    obtain ⟨hv, hfin⟩ := denoteTerms_of_evaluateSum hi es h hb hd
    exact ⟨by rw [denote, hv, zero_add], hfin⟩
  | mul es, b, v, h, hb, hd => by
    obtain ⟨hv, hfin⟩ := denoteFactors_of_evaluateProduct hi es h hb hd
    exact ⟨by rw [denote, hv, one_mul], hfin⟩
  | sum q body, b, v, h, hb, hd => by
    have hbound : ∀ x ∈ q.formula.occurrences ++ body.freeVars, x ∉ q.symbols →
        (b.get? x).isSome := by
      intro x hx hq
      exact hb x (List.mem_filter.mpr ⟨hx, decide_eq_true hq⟩)
    refine denote_sum_of_answers hi h (fun x hx => hbound x (List.mem_append_left _ hx))
      (fun u hu => (hd u hu).1) fun t x hreach htrue hx => ?_
    refine denote_of_evaluate hi body hx (fun y hy => ?_) ((hd _ hreach).2 htrue)
    -- a free symbol of the body is bound by the answer or by the outer binding
    by_cases hq : y ∈ q.symbols
    · obtain ⟨c, -, hc⟩ := hreach.binds y hq
      rw [hc]
      rfl
    · rw [hreach.keeps y hq]
      exact hbound y (List.mem_append_right _ hy) hq

theorem denoteTerms_of_evaluateSum (hi : i.Lists w) :
    (es : List (Expr ℚ)) → ∀ {b total v}, evaluateSum i b total es = .ok v →
      (∀ x ∈ freeVarsList es, (b.get? x).isSome) → DecidedList w es b.get? →
      v = total + denoteTerms w i.values es b.get? ∧ denoteTerms w i.demands es b.get? ≠ ⊤
  | [], b, total, v, h, _, _ => ⟨(Except.ok.inj h).symm.trans (add_zero _).symm, ENat.zero_ne_top⟩
  | e :: es, b, total, v, h, hb, hd => by
    obtain ⟨x, hx, h⟩ := exceptT_bind_eq_ok_iff.mp h
    obtain ⟨hv₁, hfin₁⟩ := denote_of_evaluate hi e hx
      (fun x hx => hb x (List.mem_append_left _ hx)) hd.1
    obtain ⟨hv₂, hfin₂⟩ := denoteTerms_of_evaluateSum hi es h
      (fun x hx => hb x (List.mem_append_right _ hx)) hd.2
    refine ⟨by rw [hv₂, denoteTerms, hv₁, add_assoc], ?_⟩
    rw [denoteTerms, ne_eq, ENat.add_eq_top, not_or]
    exact ⟨hfin₁, hfin₂⟩

theorem denoteFactors_of_evaluateProduct (hi : i.Lists w) :
    (es : List (Expr ℚ)) → ∀ {b total v}, evaluateProduct i b total es = .ok v →
      (∀ x ∈ freeVarsList es, (b.get? x).isSome) → DecidedList w es b.get? →
      v = total * denoteFactors w i.values es b.get? ∧ denoteFactors w i.demands es b.get? ≠ ⊤
  | [], b, total, v, h, _, _ => ⟨(Except.ok.inj h).symm.trans (mul_one _).symm, ENat.one_ne_top⟩
  | e :: es, b, total, v, h, hb, hd => by
    obtain ⟨x, hx, h⟩ := exceptT_bind_eq_ok_iff.mp h
    obtain ⟨hv₁, hfin₁⟩ := denote_of_evaluate hi e hx
      (fun x hx => hb x (List.mem_append_left _ hx)) hd.1
    obtain ⟨hv₂, hfin₂⟩ := denoteFactors_of_evaluateProduct hi es h
      (fun x hx => hb x (List.mem_append_right _ hx)) hd.2
    refine ⟨by rw [hv₂, denoteFactors, hv₁, mul_assoc], ?_⟩
    rw [denoteFactors]
    exact WithTop.mul_ne_top hfin₁ hfin₂

end

/-! ### Summands that are finite have values -/

/-- A finite factor has its denotation as value. -/
theorem evaluate_factor {f : Factor ℚ} (h : f.denote i.demands b.get? ≠ ⊤) :
    f.toExpr.evaluate i b = .ok (f.denote i.values b.get?) := by
  cases f with
  | symbol s =>
    obtain ⟨v, hv⟩ := demands_symbolValue.mp h
    rw [Factor.denote, values_symbolValue hv]
    exact liftExcept_eq_ok_iff.mpr (symbolValue_eq_ok_iff.mpr hv)
  | atom a =>
    rw [Factor.denote] at h
    cases hg : a.groundAt b.get? with
    | none =>
      rw [hg] at h
      exact absurd rfl h
    | some g =>
      rw [hg] at h
      obtain ⟨hkind, v, hv⟩ := demands_value.mp h
      rw [Atom.template_of_groundAt hg] at hkind
      have hvalue : (Factor.atom a).denote i.values b.get? = v := by
        rw [Factor.denote, hg]
        exact values_value hv
      rw [hvalue]
      exact exceptT_bind_eq_ok_iff.mpr
        ⟨g, liftExcept_eq_ok_iff.mpr (groundAtom_eq_ok_iff.mpr ⟨hkind, hg⟩), hv⟩

theorem demands_factor_ne_zero (f : Factor ℚ) (v : Valuation ℚ) : f.denote i.demands v ≠ 0 := by
  cases f with
  | symbol s =>
    rw [Factor.denote, Reading.symbolValue]
    cases (v s).bind Constant.number? <;> simp [Interpretation.demands]
  | atom a =>
    rw [Factor.denote, Reading.atomValue]
    cases a.groundAt v with
    | none => simp [Interpretation.demands]
    | some g =>
      simp only [Option.map_some, Option.getD_some, Interpretation.demands]
      split
      · exact ENat.top_ne_zero
      · split
        · exact one_ne_zero
        · exact ENat.top_ne_zero

/-- Expressions with values have their product. -/
theorem evaluateProduct_eq_ok {es : List (Expr ℚ)} {vs : List ℚ}
    (h : List.Forall₂ (fun e v => e.evaluate i b = .ok v) es vs) (total : ℚ) :
    evaluateProduct i b total es = .ok (total * vs.prod) := by
  induction h generalizing total with
  | nil => rw [List.prod_nil, mul_one]; rfl
  | cons he _ ih =>
    rw [List.prod_cons, ← mul_assoc]
    exact exceptT_bind_eq_ok_iff.mpr ⟨_, he, ih _⟩

/-- Expressions with values have their sum. -/
theorem evaluateSum_eq_ok {es : List (Expr ℚ)} {vs : List ℚ}
    (h : List.Forall₂ (fun e v => e.evaluate i b = .ok v) es vs) (total : ℚ) :
    evaluateSum i b total es = .ok (total + vs.sum) := by
  induction h generalizing total with
  | nil => rw [List.sum_nil, add_zero]; rfl
  | cons he _ ih =>
    rw [List.sum_cons, ← add_assoc]
    exact exceptT_bind_eq_ok_iff.mpr ⟨_, he, ih _⟩

/-- A product term whose factors have values has their product times the coefficient. -/
theorem evaluate_termExpr_of_factors {s : Summand ℚ} {g : Factor ℚ → ℚ}
    (h : ∀ f ∈ s.factors, f.toExpr.evaluate i b = .ok (g f)) :
    s.termExpr.evaluate i b = .ok (s.coefficient * (s.factors.map g).prod) := by
  have hfactors : List.Forall₂ (fun e v => e.evaluate i b = .ok v)
      (s.factors.map Factor.toExpr) (s.factors.map g) := by
    rw [List.forall₂_map_left_iff, List.forall₂_map_right_iff, List.forall₂_same]
    exact h
  obtain ⟨vs, hvs, hprod⟩ : ∃ vs, List.Forall₂ (fun e v => e.evaluate i b = .ok v)
      (if s.factors.isEmpty || !Scalar.numEq s.coefficient 1 then
        constant s.coefficient :: s.factors.map Factor.toExpr else s.factors.map Factor.toExpr) vs
      ∧ vs.prod = s.coefficient * (s.factors.map g).prod := by
    -- the coefficient stands in front unless it is one and there are factors
    split
    · exact ⟨_, .cons rfl hfactors, List.prod_cons⟩
    · rename_i hone
      rw [Bool.or_eq_true, not_or, Scalar.numEq_rat, Bool.not_eq_true', Bool.not_eq_false,
        decide_eq_true_eq] at hone
      exact ⟨_, hfactors, by rw [hone.2, one_mul]⟩
  have hmul : ∀ {parts : List (Expr ℚ)},
      List.Forall₂ (fun e v => e.evaluate i b = .ok v) parts vs →
        (mul parts).evaluate i b = .ok vs.prod := by
    intro parts h
    rw [← one_mul vs.prod]
    exact evaluateProduct_eq_ok h 1
  rw [termExpr, ← hprod]
  revert hvs
  generalize (if s.factors.isEmpty || !Scalar.numEq s.coefficient 1 then
    constant s.coefficient :: s.factors.map Factor.toExpr else s.factors.map Factor.toExpr) = parts
  intro hvs
  -- a single part stands for itself
  cases parts with
  | nil => exact hmul hvs
  | cons e es =>
    cases es with
    | nil =>
      obtain ⟨v, rest, he, hrest, rfl⟩ := List.forall₂_cons_left_iff.mp hvs
      rw [List.forall₂_nil_left_iff.mp hrest, List.prod_singleton]
      exact he
    | cons e' es => exact hmul hvs

/-- A finite product term has its denotation as value. -/
theorem evaluate_termExpr {s : Summand ℚ} (h : s.bodyDenote i.demands b.get? ≠ ⊤) :
    s.termExpr.evaluate i b = .ok (s.bodyDenote i.values b.get?) := by
  have hone : i.demands.coefficient s.coefficient = 1 := rfl
  rw [bodyDenote, hone, one_mul] at h
  have hfin := ne_top_of_prod_ne_top h fun hzero => by
    obtain ⟨f, -, hf⟩ := List.mem_map.mp hzero
    exact demands_factor_ne_zero f _ hf
  exact evaluate_termExpr_of_factors fun f hf =>
    evaluate_factor (hfin _ (List.mem_map_of_mem hf))

/-- **A finite summand has its denotation as value.** -/
theorem evaluate_toExpr (hi : i.Lists w) {s : Summand ℚ}
    (hb : ∀ x ∈ s.freeVars, (b.get? x).isSome) (hd : s.Decided w b.get?)
    (h : s.denote w i.demands b.get? ≠ ⊤) :
    s.toExpr.evaluate i b = .ok (s.denote w i.values b.get?) := by
  rw [toExpr]
  cases hq : s.query with
  | none =>
    rw [denote_of_query_eq_none hq] at h ⊢
    exact evaluate_termExpr h
  | some q =>
    have hbound : s.bound = q.symbols := by rw [bound, hq]; rfl
    -- with the query the condition is its formula
    have hcond : ∀ u, s.condition w u = q.formula.kleene u w.truthOf := fun u => by
      rw [condition, hq]
    have hterm : ∀ {R : Type} [CommSemiring R] (m : Reading R), s.term w m = fun u =>
        if q.formula.kleene u w.truthOf = some true then s.bodyDenote m u else 0 := by
      intro R _ m
      funext u
      rw [term, hcond]
    obtain ⟨ts, hts, hlist⟩ := answers_substitute hi (b := b) (q := q)
      (fun x hx hnot => hb x (mem_freeVars.mpr
        ⟨mem_vars.mpr (.inr (.inl ⟨q, hq, hx⟩)), by rw [hbound]; exact hnot⟩))
      fun u hu => by
        rw [← hcond]
        exact hd u (by rw [hbound]; exact hu)
    -- the total over the listed answers is the sum that is evaluated
    rw [Summand.denote, hbound, hterm, hlist.total_eq] at h ⊢
    rw [sum_ne_top_iff, List.forall_mem_map] at h
    refine exceptT_bind_eq_ok_iff.mpr ⟨ts, hts, ?_⟩
    rw [← zero_add (List.sum _)]
    refine foldlM_add_eq_ok (f := fun t => s.termExpr.evaluate i (b.extend q.symbols t))
      fun t ht => ?_
    have hfin := h t ht
    rw [← Binding.get?_extend] at hfin ⊢
    exact evaluate_termExpr hfin

/-! ### Normal forms -/

mutual

/-- No order of the expression compares constants that do not compare, whatever constants of the world
its sums bind. -/
def Comparable (w : World) : Expr ℚ → Valuation ℚ → Prop
  | constant _, _ => True
  | symbol _, _ => True
  | atom _, _ => True
  | add es, v => ComparableList w es v
  | mul es, v => ComparableList w es v
  | sum q body, v => ∀ u, w.Reaches q.symbols v u → q.formula.Comparable u ∧ Comparable w body u

/-- The same for every expression of a list. -/
def ComparableList (w : World) : List (Expr ℚ) → Valuation ℚ → Prop
  | [], _ => True
  | e :: es, v => Comparable w e v ∧ ComparableList w es v

end

mutual

/-- Where all orders compare and the scope is bound, every formula is decided. -/
theorem Comparable.decided_of_scoped :
    (e : Expr ℚ) → ∀ {b : Binding ℚ} {scope}, e.Comparable w b.get? → e.Scoped scope →
      (∀ x ∈ scope, (b.get? x).isSome) → e.Decided w b.get?
  | constant _, _, _, _, _, _ => trivial
  | symbol _, _, _, _, _, _ => trivial
  | atom _, _, _, _, _, _ => trivial
  | add es, _, _, h, hs, hb => ComparableList.decided_of_scoped es h hs hb
  | mul es, _, _, h, hs, hb => ComparableList.decided_of_scoped es h hs hb
  | sum q body, b, scope, h, hs, hb => by
    intro u hu
    obtain ⟨t, ht, rfl⟩ := hu.exists_tuple q.nodup
    -- the answer binds the symbols of the query, and the others keep their constants
    have hall : ∀ x ∈ q.symbols ++ scope, ((b.extend q.symbols t).get? x).isSome := by
      intro x hx
      rw [Binding.get?_extend]
      by_cases hq : x ∈ q.symbols
      · obtain ⟨c, -, hc⟩ := hu.binds x hq
        rw [hc]
        rfl
      · rw [hu.keeps x hq]
        exact hb x ((List.mem_append.mp hx).resolve_left hq)
    obtain ⟨hformula, hbody⟩ := h _ hu
    rw [← Binding.get?_extend] at hformula hbody ⊢
    exact ⟨hformula.kleene_ne_none fun x hx => hall x (List.mem_append.mpr (hs.1 x hx)),
      fun _ => Comparable.decided_of_scoped body hbody hs.2 hall⟩

theorem ComparableList.decided_of_scoped :
    (es : List (Expr ℚ)) → ∀ {b : Binding ℚ} {scope}, ComparableList w es b.get? →
      ScopedList es scope → (∀ x ∈ scope, (b.get? x).isSome) → DecidedList w es b.get?
  | [], _, _, _, _, _ => trivial
  | e :: es, _, _, h, hs, hb => ⟨Comparable.decided_of_scoped e h.1 hs.1 hb,
      ComparableList.decided_of_scoped es h.2 hs.2 hb⟩

end

/-- Where all orders compare and all free variables are bound, every formula is decided. -/
theorem Comparable.decided (e : Expr ℚ) {b : Binding ℚ} (h : e.Comparable w b.get?)
    (hb : ∀ x ∈ e.freeVars, (b.get? x).isSome) : e.Decided w b.get? :=
  decided_of_scoped e h (scoped_of_freeVars e fun _ hx => hx) hb

/-- Summands with values add up in a normal form. -/
theorem evaluate_ofSummands {ss : List (Summand ℚ)} {vs : List ℚ}
    (h : List.Forall₂ (fun e v => e.evaluate i b = .ok v) (ss.map toExpr) vs) :
    (ofSummands ss).evaluate i b = .ok vs.sum := by
  have hadd : (add (ss.map toExpr)).evaluate i b = .ok vs.sum := by
    rw [← zero_add vs.sum]
    exact evaluateSum_eq_ok h 0
  match ss with
  | [] =>
    rw [List.map_nil, List.forall₂_nil_left_iff] at h
    rw [h]
    rfl
  | [s] =>
    obtain ⟨v, rest, he, hrest, rfl⟩ := List.forall₂_cons_left_iff.mp h
    rw [List.forall₂_nil_left_iff.mp hrest, List.sum_singleton]
    exact he
  | s :: t :: ss => exact hadd

/-- **Normalization preserves value**: under a binding of all free variables, and where no order
compares a text with a number, an expression with a value has a normal form of the same value. -/
theorem normalize_preserves_value (hi : i.Lists w) {e n : Expr ℚ} (hn : e.normalize = .ok n)
    (hb : ∀ x ∈ e.freeVars, b.contains x = true) (hc : e.Comparable w b.get?) {v : ℚ}
    (hv : e.evaluate i b = .ok v) : n.evaluate i b = .ok v := by
  obtain ⟨ss, hss, rfl⟩ := normalize_eq_ok hn
  have hd : e.Decided w b.get? := Comparable.decided e hc hb
  obtain ⟨hvalue, hfinite⟩ := denote_of_evaluate hi e hv hb hd
  obtain ⟨hdecided, hsum⟩ := denote_expand (m := i.values) e hss b.get? hd
  obtain ⟨-, hdemand⟩ := denote_expand (m := i.demands) e hss b.get? hd
  rw [hdemand, sum_ne_top_iff, List.forall_mem_map] at hfinite
  rw [← hvalue, hsum, ← sum_denote_nonzero (m := i.values) rfl]
  refine evaluate_ofSummands ?_
  rw [List.forall₂_map_left_iff, List.forall₂_map_right_iff, List.forall₂_same]
  intro s hs
  have hs := List.mem_of_mem_filter hs
  exact evaluate_toExpr hi (fun x hx => hb x (mem_freeVars_of_expand e hss s hs hx))
    (hdecided s hs) (hfinite s hs)

end Expr

/-! ### Listed constants -/

/-- The tuples of a length of some constants, in order. -/
def tuplesOf (constants : List (Constant ℚ)) : ℕ → List (Tuple ℚ)
  | 0 => [[]]
  | n + 1 => constants.flatMap fun c => (tuplesOf constants n).map (c :: ·)

theorem mem_tuplesOf {constants : List (Constant ℚ)} {truthOf : Atom ℚ → Bool} {n : ℕ}
    {t : Tuple ℚ} :
    t ∈ tuplesOf constants n ↔ t ∈ (World.mk constants.toFinset truthOf).tuples n := by
  rw [World.mem_tuples]
  simp only [List.mem_toFinset]
  induction n generalizing t with
  | zero =>
    rw [tuplesOf, List.mem_singleton, List.length_eq_zero_iff]
    refine ⟨fun h => ⟨h, ?_⟩, fun h => h.1⟩
    rw [h]
    exact nofun
  | succ n ih =>
    rw [tuplesOf, List.mem_flatMap]
    constructor
    · rintro ⟨c, hc, ht⟩
      obtain ⟨rest, hrest, rfl⟩ := List.mem_map.mp ht
      obtain ⟨hlen, hall⟩ := ih.mp hrest
      exact ⟨congrArg Nat.succ hlen, List.forall_mem_cons.mpr ⟨hc, hall⟩⟩
    · rintro ⟨hlen, hall⟩
      cases t with
      | nil => exact nomatch hlen
      | cons c rest =>
        obtain ⟨hc, hall⟩ := List.forall_mem_cons.mp hall
        exact ⟨c, hc, List.mem_map_of_mem (ih.mpr ⟨Nat.succ.inj hlen, hall⟩)⟩

theorem nodup_tuplesOf {constants : List (Constant ℚ)} (h : constants.Nodup) (n : ℕ) :
    (tuplesOf constants n).Nodup := by
  induction n with
  | zero => exact List.nodup_singleton _
  | succ n ih =>
    rw [tuplesOf, List.nodup_flatMap]
    refine ⟨fun c _ => ih.map fun _ _ heq => (List.cons.inj heq).2, h.imp fun hne => ?_⟩
    intro t hc hd
    obtain ⟨s, -, rfl⟩ := List.mem_map.mp hc
    obtain ⟨s', -, heq⟩ := List.mem_map.mp hd
    exact hne (List.cons.inj heq).1.symm

/-- The interpretation that lists the tuples of some constants in order. -/
def Interpretation.listing (constants : List (Constant ℚ)) (truthOf : Atom ℚ → Bool)
    (value : Atom ℚ → Except ExprError ℚ) : Interpretation ℚ Id where
  value a := ExceptT.mk (value a)
  answers symbols f := ExceptT.mk (.ok ((tuplesOf constants symbols.length).filter fun t =>
    f.evaluate (.ofAnswer symbols t) truthOf = some true))

/-- Listing different constants is an interpretation of their world. -/
theorem Interpretation.lists_listing {constants : List (Constant ℚ)} (h : constants.Nodup)
    (truthOf : Atom ℚ → Bool) (value : Atom ℚ → Except ExprError ℚ) :
    (listing constants truthOf value).Lists ⟨constants.toFinset, truthOf⟩ where
  answers := by
    intro symbols f
    refine ⟨_, rfl, (nodup_tuplesOf h _).filter _, fun t => ?_⟩
    rw [List.mem_filter, decide_eq_true_eq, mem_tuplesOf]

namespace Expr

/-- `{X | X < 3} X` times `{X | r(X)} c(X)`: both sums bind `X`. -/
def shadowed : Expr ℚ :=
  mul [
    sum (.ofSymbols [⟨"X"⟩] (.compare ⟨.var ⟨"X"⟩, .lt, .const (.integer 3)⟩)) (symbol ⟨"X"⟩),
    sum (.ofSymbols [⟨"X"⟩] (.atom ⟨⟨"r", 1, .boolean, false⟩, [.var ⟨"X"⟩]⟩))
      (atom ⟨⟨"c", 1, .numeric, false⟩, [.var ⟨"X"⟩]⟩)]

/-- Over the constants 1, 2 and 3, where `r` holds of 3 and `c` is 5 everywhere, the product of the two
sums is 15, and so is the one sum that it becomes. -/
theorem normalize_preserves_value_shadowed :
    shadowed.Comparable ⟨[.integer 1, .integer 2, .integer 3].toFinset, fun a =>
        a.arguments == [.const (.integer 3)]⟩ Binding.empty.get?
      ∧ ∃ n, shadowed.normalize = .ok n
        ∧ n.evaluate (.listing [.integer 1, .integer 2, .integer 3] (fun a =>
            a.arguments == [.const (.integer 3)]) fun _ => .ok 5) .empty = .ok 15 := by
  have hc : shadowed.Comparable ⟨[.integer 1, .integer 2, .integer 3].toFinset, fun a =>
      a.arguments == [.const (.integer 3)]⟩ Binding.empty.get? := by
    refine ⟨fun u hu => ⟨?_, trivial⟩, fun u hu => ⟨?_, trivial⟩, trivial⟩
    · -- the order meets the constants of the world, which are integers
      intro c hmem
      rw [List.mem_singleton.mp hmem]
      rintro - x y hx hy
      obtain ⟨z, hz, huz⟩ := hu.binds ⟨"X"⟩ (List.mem_singleton_self _)
      obtain rfl : z = x := Option.some.inj (huz.symm.trans hx)
      obtain rfl : Constant.integer 3 = y := Option.some.inj hy
      rw [List.mem_toFinset] at hz
      have hall : ∀ z ∈ ([.integer 1, .integer 2, .integer 3] : List (Constant ℚ)),
          z.compareValue (.integer 3) ≠ none := by decide
      exact hall z hz
    · exact nofun
  have hv : shadowed.evaluate (.listing [.integer 1, .integer 2, .integer 3] (fun a =>
      a.arguments == [.const (.integer 3)]) fun _ => .ok 5) .empty = .ok 15 := by
    show (_ : Except ExprError ℚ) = .ok 15
    decide +kernel
  have hsome : shadowed.normalize.toOption.isSome = true := by decide +kernel
  obtain ⟨n, hn⟩ := exists_eq_ok_of_isSome_toOption hsome
  exact ⟨hc, n, hn, normalize_preserves_value (Interpretation.lists_listing (by decide) _ _) hn
    (by decide) hc hv⟩

end Expr

end RelationalLP
