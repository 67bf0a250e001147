import Mathlib
import RelationalLP.Proofs.Expr.Substitution
import RelationalLP.Proofs.Facts.Worlds
import RelationalLP.Proofs.Grounding.Groundable
import RelationalLP.Proofs.Grounding.InstanceRows
import RelationalLP.Proofs.Grounding.Readings

/-! # Denotations of instances

Grounding by instances over a fact base, read through denotations. The quantity that an expression is
given is what it denotes, and every fact that the expression needs has a value. -/

namespace RelationalLP

namespace Instances

variable {w : World} {fb : FactBase ℚ} {b : Binding ℚ} {F : Quantity}

/-! ### Products -/

/-- A number that a factor is given is its value, and the factor is finite. -/
theorem denote_of_factorGives {f : Factor ℚ} {q : ℚ} (h : FactorGives fb.knowledgeBase b f q) :
    f.denote fb.demands b.get? ≠ ⊤ ∧ ∀ x, f.denote (fb.values x) b.get? = q := by
  cases h with
  | symbol h => exact ⟨FactBase.demands_symbol_ne_top.mpr ⟨q, h⟩, fun x => FactBase.values_symbol h⟩
  | @atom a g q hdecision hg hq =>
    exact ⟨(FactBase.demands_atom_ne_top hdecision).mpr ⟨g, q, hg, hq⟩,
      fun x => FactBase.values_atom hdecision hg hq⟩

/-- What the decision variable of a product stands for is its denotation, and it needs no fact. -/
theorem denote_of_decisionGives (fb : FactBase ℚ) {s : Summand ℚ} {D : Quantity}
    (h : DecisionGives b s.decision? D) :
    s.decisionDenote fb.demands b.get? = 1 ∧ ∀ x, s.decisionDenote (fb.values x) b.get? = D x := by
  cases hd : s.decision? with
  | none =>
    rw [hd] at h
    cases h
    simp [Summand.decisionDenote, hd]
  | some a =>
    rw [hd] at h
    cases h with
    | some hg => exact ⟨FactBase.demands_decisionDenote hd hg, FactBase.values_decisionDenote hd hg⟩

/-- **The quantity of a product is what it denotes.** -/
theorem denote_of_productGives {s : Summand ℚ} (hs : s.Linear)
    (h : ProductGives fb.knowledgeBase s b F) :
    s.bodyDenote fb.demands b.get? ≠ ⊤ ∧ ∀ x, F x = s.bodyDenote (fb.values x) b.get? := by
  obtain ⟨qs, D, hqs, hD, rfl⟩ := h
  obtain ⟨hone, hdecision⟩ := denote_of_decisionGives fb hD
  constructor
  · rw [Summand.bodyDenote_eq_mul hs, hone, mul_one, Summand.plainDenote]
    refine WithTop.mul_ne_top (FactBase.support_ne_top _) (prod_ne_top ?_)
    rw [List.forall_mem_map]
    intro f hf
    obtain ⟨q, -, hq⟩ := exists_of_forall₂_left hqs hf
    exact (denote_of_factorGives hq).1
  · intro x
    have hvalues : qs = s.plainFactors.map (Factor.denote (fb.values x) b.get?) :=
      eq_map_of_forall₂ hqs fun f _ q hq => ((denote_of_factorGives hq).2 x).symm
    rw [Summand.bodyDenote_eq_mul hs, hdecision, Summand.plainDenote, ← hvalues]
    rfl

/-! ### Answers -/

/-- The answers of a query that is not under another one. -/
theorem listing_of_ask (hw : w.Describes fb) {q : Query ℚ} (hterms : ∀ t ∈ q.terms, w.Admits t)
    (hscope : q.Scoped [])
    (hdec : ∀ u, w.Reaches q.symbols .unbound u → q.formula.kleene u w.truthOf ≠ none)
    {ts : Answers ℚ} (h : fb.knowledgeBase.ask q.symbols q.formula none = .ok ts) :
    w.Listing q.symbols (fun u => q.formula.kleene u w.truthOf = some true) .unbound ts := by
  rw [Query.terms, List.forall_mem_append] at hterms
  refine FactBase.listing_answers hw (World.knows_of_admits hterms.2) q.nodup (fun x hx => ?_)
    (fun t ht => hdec _ (World.reaches_extend q.nodup ht .unbound)) h
  exact (hscope x hx).resolve_right List.not_mem_nil

/-- The bindings for a query list its answers; without a query there is the one answer of the query that
always holds. -/
theorem listing_of_bindings (hw : w.Describes fb) {q? : Option (Query ℚ)}
    (hterms : ∀ q, q? = some q → ∀ t ∈ q.terms, w.Admits t)
    (hscope : ∀ q, q? = some q → q.Scoped [])
    (hdec : ∀ u, w.Reaches (q?.getD .always).symbols .unbound u →
      (q?.getD .always).formula.kleene u w.truthOf ≠ none)
    {bs : List (Binding ℚ)} (h : fb.knowledgeBase.bindings q? = .ok bs) :
    ∃ ts, w.Listing (q?.getD .always).symbols
        (fun u => (q?.getD .always).formula.kleene u w.truthOf = some true) .unbound ts
      ∧ bs = ts.map (Binding.ofAnswer (q?.getD .always).symbols) := by
  cases q? with
  | none =>
    obtain rfl := Except.ok.inj h
    exact ⟨[[]], World.listing_nil rfl, rfl⟩
  | some q =>
    obtain ⟨ts, hask, heq⟩ := exceptT_bind_eq_ok_iff.mp h
    exact ⟨ts, listing_of_ask hw (hterms q rfl) (hscope q rfl) hdec hask, (Except.ok.inj heq).symm⟩

/-! ### Expressions -/

/-- **The quantity of a summand is what it denotes.** -/
theorem denote_of_summandGives (hw : w.Describes fb) {s : Summand ℚ} (hs : s.Fits w.Admits [])
    (hl : s.Linear) (hd : s.Decided w .unbound) (h : SummandGives fb.knowledgeBase s F) :
    s.denote w fb.demands .unbound ≠ ⊤ ∧ ∀ x, F x = s.denote w (fb.values x) .unbound := by
  obtain ⟨bs, Fs, hbs, hFs, rfl⟩ := h
  obtain ⟨ts, hlist, rfl⟩ := listing_of_bindings hw hs.query hs.inScope
    (fun u hu => by
      rw [← Summand.base, ← Summand.condition_eq_base]
      exact hd u (by rw [Summand.bound_eq_base]; exact hu)) hbs
  -- a denotation sums over the answers, in any semiring
  have hdenote : ∀ {R : Type} [CommSemiring R] (m : Reading R), s.denote w m .unbound
      = (ts.map fun t => s.bodyDenote m (Binding.ofAnswer s.base.symbols t).get?).sum := by
    intro R _ m
    have hterm : s.term w m = fun u =>
        if s.base.formula.kleene u w.truthOf = some true then s.bodyDenote m u else 0 := by
      funext u
      rw [Summand.term, Summand.condition_eq_base]
    simp only [Summand.denote, hterm, Summand.bound_eq_base, Binding.get?_ofAnswer, Summand.base]
    exact hlist.total_eq (s.bodyDenote m)
  rw [List.forall₂_map_left_iff] at hFs
  constructor
  · rw [hdenote, sum_ne_top_iff, List.forall_mem_map]
    intro t ht
    obtain ⟨F, -, hF⟩ := exists_of_forall₂_left hFs ht
    exact (denote_of_productGives hl hF).1
  · intro x
    rw [hdenote]
    exact congrArg List.sum
      (map_eq_map_of_forall₂ hFs fun t _ F hF => (denote_of_productGives hl hF).2 x)

/-- **The quantity of an expression is what it denotes**, and the expression is finite. -/
theorem denote_of_exprGives (hw : w.Describes fb) {e : Expr ℚ} (he : e.Groundable w)
    (h : ExprGives fb.knowledgeBase e F) :
    e.denote w fb.demands .unbound ≠ ⊤ ∧ ∀ x, F x = e.denote w (fb.values x) .unbound := by
  obtain ⟨ss, Fs, hss, hFs, rfl⟩ := h
  have hsummand : ∀ s ∈ ss, ∀ F, SummandGives fb.knowledgeBase s F →
      s.denote w fb.demands .unbound ≠ ⊤ ∧ ∀ x, F x = s.denote w (fb.values x) .unbound :=
    fun s hs F hF => denote_of_summandGives hw
      (Expr.fits_of_summands w.keptByFresh_admits hss he.admitted he.inScope s hs)
      (Expr.linear_of_summands hss s hs) (Expr.decided_of_summands hss he.decided s hs) hF
  constructor
  · rw [Expr.denote_of_summands hss he.decided (FactBase.support_eq_zero_iff.mpr rfl),
      sum_ne_top_iff, List.forall_mem_map]
    intro s hs
    obtain ⟨F, -, hF⟩ := exists_of_forall₂_left hFs hs
    exact (hsummand s hs F hF).1
  · intro x
    rw [Expr.denote_of_summands hss he.decided rfl]
    exact congrArg List.sum (map_eq_map_of_forall₂ hFs fun s hs F hF => (hsummand s hs F hF).2 x)

end Instances

/-! ### Constraints -/

namespace Constraint

variable (w : World) (fb : FactBase ℚ) (c : Constraint ℚ)

/-- The value of an instance of a constraint in a reading. -/
def instanceValue {R : Type} [CommSemiring R] (m : Reading R) (t : Tuple ℚ) : R :=
  c.relation.canonical.denote w m (Valuation.unbound.extend c.outer.symbols t)

/-- The quantity of an instance of a constraint. -/
def instanceQuantity (t : Tuple ℚ) : Quantity := fun x => c.instanceValue w (fb.values x) t

/-- A listing of the answers of the query of a constraint. -/
def Lists (ts : List (Tuple ℚ)) : Prop :=
  w.Listing c.outer.symbols (fun u => c.outer.formula.kleene u w.truthOf = some true) .unbound ts

/-- The tuples of constants that answer the query of a constraint. -/
def answers : Finset (Tuple ℚ) := (w.tuples c.outer.symbols.length).filter fun t =>
  c.outer.formula.kleene (Valuation.unbound.extend c.outer.symbols t) w.truthOf = some true

/-- **The rows of a constraint**: the quantities of its instances, as far as they vary. -/
noncomputable def rowQuantities : Multiset Quantity :=
  ((c.answers w).val.map (c.instanceQuantity w fb)).filter (·.Varies)

variable {w fb c}

theorem Lists.mem_answers_iff {ts : List (Tuple ℚ)} (h : c.Lists w ts) {t : Tuple ℚ} :
    t ∈ ts ↔ t ∈ c.answers w := by
  rw [answers, Finset.mem_filter]
  exact h.mem_iff t

theorem lists_toList (w : World) (c : Constraint ℚ) : c.Lists w (c.answers w).toList := by
  refine ⟨Finset.nodup_toList _, fun t => ?_⟩
  rw [Finset.mem_toList, answers, Finset.mem_filter]

/-- The quantities of listed answers that vary are the rows of the constraint. -/
theorem Lists.coe_filter_eq {ts : List (Tuple ℚ)} (h : c.Lists w ts) :
    (((ts.map (c.instanceQuantity w fb)).filter fun F => F.Varies : List Quantity) :
      Multiset Quantity) = c.rowQuantities w fb := by
  have hts : (ts : Multiset (Tuple ℚ)) = (c.answers w).val :=
    (Multiset.coe_nodup.mpr h.nodup).ext (c.answers w).nodup |>.mpr fun t => h.mem_answers_iff
  rw [rowQuantities, ← hts, Multiset.map_coe, Multiset.filter_coe]

/-- An instance of a groundable constraint is groundable. -/
theorem groundable_instance (hc : c.summed.Groundable w) {ts : List (Tuple ℚ)}
    (hts : c.Lists w ts) {t : Tuple ℚ} (ht : t ∈ ts) :
    (c.relation.canonical.substitute (.ofAnswer c.outer.symbols t)).Groundable w := by
  obtain ⟨htuple, htrue⟩ := (hts.mem_iff t).mp ht
  have hreach := World.reaches_extend c.outer.nodup htuple .unbound
  have hterms := hc.admitted
  rw [summed, Expr.terms, List.forall_mem_append] at hterms
  refine ⟨Expr.forall_terms_substitute _ (fun s d hd => ?_) hterms.2,
    Expr.Scoped.substitute _ hc.inScope.2 fun x hx => ?_, Expr.Decided.substitute _ ?_⟩
  · rw [Binding.get?_ofAnswer] at hd
    rintro d' hd'
    obtain rfl := Term.const.inj hd'
    exact FactBase.inside_extend htuple s _ hd
  · rw [List.append_nil] at hx
    obtain ⟨d, -, hd⟩ := hreach.binds x hx
    rw [Binding.get?_ofAnswer, hd]
    exact .inl rfl
  · rw [Valuation.filled_unbound, Binding.get?_ofAnswer]
    exact (hc.decided _ hreach).2 htrue

theorem denote_instance {R : Type} [CommSemiring R] (m : Reading R) (t : Tuple ℚ) :
    (c.relation.canonical.substitute (.ofAnswer c.outer.symbols t)).denote w m .unbound
      = c.instanceValue w m t := by
  rw [Expr.denote_substitute _ (Binding.apart_unbound _), Valuation.filled_unbound,
    Binding.get?_ofAnswer]
  rfl

/-- **The quantities of a constraint** are those of its instances, one for each answer of its query, and
every instance is finite. -/
theorem exists_lists_of_gives (hw : w.Describes fb) (hc : c.summed.Groundable w)
    {Fs : List Quantity} (h : Instances.ConstraintGives fb.knowledgeBase c Fs) :
    ∃ ts, c.Lists w ts ∧ Fs = ts.map (c.instanceQuantity w fb)
      ∧ ∀ t ∈ ts, c.instanceValue w fb.demands t ≠ ⊤ := by
  obtain ⟨bs, hbs, hFs⟩ := h
  have hterms := hc.admitted
  rw [summed, Expr.terms, List.forall_mem_append] at hterms
  have hscope : c.outer.Scoped [] := hc.inScope.1
  have houter : ∀ q, c.query? = some q → c.outer = q := fun q hq => by rw [outer, hq]; rfl
  obtain ⟨ts, hts, rfl⟩ := Instances.listing_of_bindings hw
    (fun q hq => by rw [← houter q hq]; exact hterms.1)
    (fun q hq => by rw [← houter q hq]; exact hscope) (fun u hu => (hc.decided u hu).1) hbs
  have hlists : c.Lists w ts := hts
  rw [List.forall₂_map_left_iff] at hFs
  -- one instance gives what it denotes
  have hinstance : ∀ t ∈ ts, ∀ F, Instances.ExprGives fb.knowledgeBase
      (c.relation.canonical.substitute (.ofAnswer c.outer.symbols t)) F →
      c.instanceValue w fb.demands t ≠ ⊤ ∧ F = c.instanceQuantity w fb t := by
    intro t ht F hF
    obtain ⟨hfinite, hvalue⟩ :=
      Instances.denote_of_exprGives hw (groundable_instance hc hlists ht) hF
    rw [denote_instance] at hfinite
    refine ⟨hfinite, funext fun x => ?_⟩
    rw [hvalue x, denote_instance]
    rfl
  refine ⟨ts, hlists, eq_map_of_forall₂ hFs fun t ht F hF => (hinstance t ht F hF.1).2,
    fun t ht => ?_⟩
  obtain ⟨F, -, hF⟩ := exists_of_forall₂_left hFs ht
  exact (hinstance t ht F hF.1).1

end Constraint

/-! ### Models -/

/-- The quantity of an objective, zero without one. -/
def objectiveQuantity (w : World) (fb : FactBase ℚ) : Option (Expr ℚ) → Quantity
  | none => fun _ => 0
  | some e => fun x => e.denote w (fb.values x) .unbound

/-- **Resolved models**: every fact that the objective or an instance of a constraint needs has a
value. -/
structure Model.Resolved (w : World) (fb : FactBase ℚ) (model : Model ℚ) : Prop where
  /-- The facts of the objective have values. -/
  objective : ∀ e ∈ model.objective, e.denote w fb.demands .unbound ≠ ⊤
  /-- The facts of all instances have values. -/
  constraints : ∀ c ∈ model.constraints, ∀ t ∈ c.answers w, c.instanceValue w fb.demands t ≠ ⊤

/-- **What a grounded model means**: it has the objective of the model and, for each constraint in order,
the rows of this constraint in some order. -/
def Grounded.Means (w : World) (fb : FactBase ℚ) (model : Model ℚ) (g : Grounded ℚ) : Prop :=
  ∃ (ctx : GroundingContext ℚ) (Fss : List (List Quantity)), g = ctx.finish
    ∧ ctx.Collects model (objectiveQuantity w fb model.objective) Fss
    ∧ List.Forall₂ (fun (c : Constraint ℚ) Fs =>
      ((Fs.filter fun F : Quantity => F.Varies : List Quantity) : Multiset Quantity)
        = c.rowQuantities w fb) model.constraints Fss

/-- **A model grounded by instances** has its meaning, and it is resolved. -/
theorem Instances.means_of_ground {w : World} {fb : FactBase ℚ} (hw : w.Describes fb)
    {model : Model ℚ} (hm : model.Groundable w) {g : Grounded ℚ}
    (h : ground fb.knowledgeBase model = .ok g) : g.Means w fb model ∧ model.Resolved w fb := by
  obtain ⟨ctx, F, Fss, rfl, hcollects, hF, hFss⟩ := exists_of_ground h
  -- without an objective the quantity is zero on both sides
  have hobjective : F = objectiveQuantity w fb model.objective
      ∧ ∀ e ∈ model.objective, e.denote w fb.demands .unbound ≠ ⊤ := by
    cases he : model.objective with
    | none =>
      rw [he] at hF
      exact ⟨hF, fun e he => nomatch he⟩
    | some e =>
      rw [he] at hF
      obtain ⟨hfinite, hvalue⟩ := denote_of_exprGives hw (hm.objective e he) hF
      refine ⟨funext hvalue, fun e' he' => ?_⟩
      rwa [← Option.some.inj he']
  have hrows : ∀ c ∈ model.constraints, ∀ Fs, ConstraintGives fb.knowledgeBase c Fs →
      ((Fs.filter fun F : Quantity => F.Varies : List Quantity) : Multiset Quantity)
          = c.rowQuantities w fb
        ∧ ∀ t ∈ c.answers w, c.instanceValue w fb.demands t ≠ ⊤ := by
    intro c hc Fs hFs
    obtain ⟨ts, hts, rfl, hfinite⟩ := Constraint.exists_lists_of_gives hw (hm.constraints c hc) hFs
    exact ⟨hts.coe_filter_eq, fun t ht => hfinite t (hts.mem_answers_iff.mpr ht)⟩
  rw [hobjective.1] at hcollects
  refine ⟨⟨ctx, Fss, rfl, hcollects, ?_⟩, hobjective.2, fun c hc => ?_⟩
  · refine ((List.forall₂_and_left _ _).mpr ⟨fun c hc => hc, hFss⟩).imp ?_
    exact fun c Fs hFs => (hrows c hFs.1 Fs hFs.2).1
  · obtain ⟨Fs, -, hFs⟩ := exists_of_forall₂_left hFss hc
    exact (hrows c hc Fs hFs).2

end RelationalLP
