import Mathlib
import RelationalLP.Grounding.Instances
import RelationalLP.Proofs.Expr.Linearity
import RelationalLP.Proofs.Grounding.Progress

/-! # Rows of instances

What grounding by instances computes, as relations: which number a factor is given, which quantity a
product, a summand, an expression and a constraint. A run that succeeds computes what is given, whatever
the knowledge base is. -/

namespace RelationalLP

/-- The bindings that a knowledge base gives for a query, the empty one where there is no query. -/
def KnowledgeBase.bindings (kb : KnowledgeBase ℚ Id) :
    Option (Query ℚ) → ExceptT KbError Id (List (Binding ℚ))
  | none => pure [.empty]
  | some q => do return (← kb.ask q.symbols q.formula none).map (Binding.ofAnswer q.symbols)

/-- Whether a number satisfies a relation to zero up to the tolerance. -/
def Relation.Tolerates (r : Relation ℚ) (q : ℚ) : Prop :=
  (if r.isEquality then |q| else q) ≤ 1e-9

namespace Instances

variable {kb : KnowledgeBase ℚ Id} {ctx ctx' : GroundingContext ℚ} {b : Binding ℚ}

/-! ### Products -/

/-- The number that a factor without decision variable is given under a binding. -/
inductive FactorGives (kb : KnowledgeBase ℚ Id) (b : Binding ℚ) : Factor ℚ → ℚ → Prop where
  /-- A symbol is bound to a number. -/
  | symbol {s : Symbol} {q : ℚ} (h : (b.get? s).bind Constant.number? = some q) :
    FactorGives kb b (.symbol s) q
  /-- A ground atom has a value. -/
  | atom {a g : Atom ℚ} {q : ℚ} (hdecision : a.isDecision = false) (hg : a.groundAt b.get? = some g)
    (hq : kb.askFact g = .ok (some q)) : FactorGives kb b (.atom a) q

/-- The quantity that the decision variable of a product stands for, one if there is none. -/
inductive DecisionGives (b : Binding ℚ) : Option (Atom ℚ) → Quantity → Prop where
  /-- No decision variable. -/
  | none : DecisionGives b none fun _ => 1
  /-- The value of the ground atom. -/
  | some {a g : Atom ℚ} (hg : a.groundAt b.get? = some g) : DecisionGives b (some a) fun x => x g

/-- The quantity that a product is given under a binding. -/
def ProductGives (kb : KnowledgeBase ℚ Id) (s : Summand ℚ) (b : Binding ℚ) (F : Quantity) : Prop :=
  ∃ qs D, List.Forall₂ (FactorGives kb b) s.plainFactors qs ∧ DecisionGives b s.decision? D
    ∧ F = fun x => s.coefficient * qs.prod * D x

theorem runs_factorValue {f : Factor ℚ} (hf : f.decision? = none) {q : ℚ}
    (h : GroundM.Runs (factorValue kb b f) ctx q ctx') : FactorGives kb b f q ∧ ctx' = ctx := by
  cases f with
  | symbol s =>
    rw [factorValue] at h
    split at h
    · rename_i v hv
      obtain ⟨rfl, rfl⟩ := GroundM.runs_pure.mp h
      exact ⟨.symbol hv, rfl⟩
    · exact absurd h GroundM.not_runs_throw
  | atom a =>
    have ha : a.isDecision = false := by
      refine eq_false_of_ne_true fun hdecision => ?_
      rw [Factor.decision?_eq_some_iff.mpr ⟨rfl, hdecision⟩] at hf
      cases hf
    rw [factorValue] at h
    split at h
    · -- an atom that is not ground is refused
      obtain ⟨u, ctx₁, hthrow, -⟩ := GroundM.runs_bind.mp h
      exact absurd hthrow GroundM.not_runs_throw
    · -- a ground atom has the value that is looked up, or is refused
      rename_i hground
      obtain ⟨found, ctx₁, hrequest, hfound⟩ := GroundM.runs_bind.mp h
      obtain ⟨hfact, rfl⟩ := GroundM.runs_request.mp hrequest
      have hg : a.groundAt b.get? = some (a.substitute b) := by
        rw [Atom.groundAt_get?, if_pos (by simpa using hground)]
      split at hfound
      · obtain ⟨rfl, rfl⟩ := GroundM.runs_pure.mp hfound
        exact ⟨.atom ha hg hfact, rfl⟩
      · exact absurd hfound GroundM.not_runs_throw

theorem runs_factorValues {fs : List (Factor ℚ)} (hfs : ∀ f ∈ fs, f.decision? = none) {c q : ℚ}
    (h : GroundM.Runs (fs.foldlM (fun v f => return v * (← factorValue kb b f)) c) ctx q ctx') :
    ∃ qs, List.Forall₂ (FactorGives kb b) fs qs ∧ q = c * qs.prod ∧ ctx' = ctx := by
  induction fs generalizing c ctx with
  | nil =>
    obtain ⟨rfl, rfl⟩ := GroundM.runs_foldlM_nil.mp h
    exact ⟨[], .nil, (mul_one _).symm, rfl⟩
  | cons f fs ih =>
    obtain ⟨hf, hfs⟩ := List.forall_mem_cons.mp hfs
    obtain ⟨p, ctx₁, hstep, hrest⟩ := GroundM.runs_foldlM_cons.mp h
    obtain ⟨v, ctx₂, hv, hpure⟩ := GroundM.runs_bind.mp hstep
    obtain ⟨hgives, rfl⟩ := runs_factorValue hf hv
    obtain ⟨rfl, rfl⟩ := GroundM.runs_pure.mp hpure
    obtain ⟨qs, hqs, rfl, rfl⟩ := ih hfs hrest
    exact ⟨v :: qs, .cons hgives hqs, by rw [List.prod_cons, mul_assoc], rfl⟩

/-- **A product under a binding**: the row gains the quantity that it is given. -/
theorem runs_accumulate {s : Summand ℚ} (hv : ctx.Valid) {row row' : GroundRow ℚ}
    (hrow : row.entries.Known ctx)
    (h : GroundM.Runs (accumulate kb s row b) ctx row' ctx') :
    ∃ F, row.Gains ctx ctx' row' F ∧ ProductGives kb s b F := by
  obtain ⟨q, ctx₁, hfactors, hrest⟩ := GroundM.runs_bind.mp h
  have hplain : ∀ f ∈ s.plainFactors, f.decision? = none := fun f hf =>
    Option.isNone_iff_eq_none.mp (List.mem_filter.mp hf).2
  obtain ⟨qs, hqs, rfl, rfl⟩ := runs_factorValues hplain hfactors
  cases hd : s.decision? with
  | some a =>
    rw [hd] at hrest
    obtain ⟨key, ctx₂, hcolumn, hpure⟩ := GroundM.runs_bind.mp hrest
    obtain ⟨rfl, rfl⟩ := GroundM.runs_pure.mp hpure
    obtain ⟨g, hg, hgains⟩ := GroundRow.gains_column hv hrow hcolumn (s.coefficient * qs.prod)
    exact ⟨_, hgains, qs, _, hqs, by rw [hd]; exact .some hg, rfl⟩
  | none =>
    rw [hd] at hrest
    obtain ⟨rfl, rfl⟩ := GroundM.runs_pure.mp hrest
    refine ⟨_, GroundRow.gains_addConstant hrow _, qs, _, hqs, by rw [hd]; exact .none, ?_⟩
    simp only [mul_one]

/-! ### Expressions -/

/-- The quantity that a summand is given: what its products are given, added up over the bindings. -/
def SummandGives (kb : KnowledgeBase ℚ Id) (s : Summand ℚ) (F : Quantity) : Prop :=
  ∃ bs Fs, kb.bindings s.query = .ok bs ∧ List.Forall₂ (ProductGives kb s) bs Fs
    ∧ F = fun x => (Fs.map (· x)).sum

/-- The quantity that an expression is given: what its summands are given, added up. -/
def ExprGives (kb : KnowledgeBase ℚ Id) (e : Expr ℚ) (F : Quantity) : Prop :=
  ∃ ss Fs, e.summands = .ok ss ∧ List.Forall₂ (SummandGives kb) ss Fs
    ∧ F = fun x => (Fs.map (· x)).sum

theorem runs_summandBindings {s : Summand ℚ} {bs : List (Binding ℚ)}
    (h : GroundM.Runs (summandBindings kb s) ctx bs ctx') :
    kb.bindings s.query = .ok bs ∧ ctx' = ctx := by
  rw [summandBindings] at h
  cases hq : s.query with
  | none =>
    rw [hq] at h
    obtain ⟨rfl, rfl⟩ := GroundM.runs_pure.mp h
    exact ⟨rfl, rfl⟩
  | some q =>
    rw [hq] at h
    obtain ⟨ts, ctx₁, hrequest, hpure⟩ := GroundM.runs_bind.mp h
    obtain ⟨hask, rfl⟩ := GroundM.runs_request.mp hrequest
    obtain ⟨rfl, rfl⟩ := GroundM.runs_pure.mp hpure
    exact ⟨exceptT_bind_eq_ok_iff.mpr ⟨ts, hask, rfl⟩, rfl⟩

/-- **The row of an expression without free symbols** is the quantity that it is given. -/
theorem runs_affine {e : Expr ℚ} (hv : ctx.Valid) {row : GroundRow ℚ}
    (h : GroundM.Runs (affine kb e) ctx row ctx') :
    ∃ F, GroundRow.empty.Gains ctx ctx' row F ∧ ExprGives kb e F := by
  obtain ⟨ss, ctx₁, hsummands, hrest⟩ := GroundM.runs_bind.mp h
  obtain ⟨hss, rfl⟩ := GroundM.runs_expression.mp hsummands
  have hstep : ∀ s ∈ ss, ∀ {ctx ctx' row row'}, ctx.Valid → row.entries.Known ctx →
      GroundM.Runs (summandBindings kb s >>= fun bs => bs.foldlM (accumulate kb s) row) ctx row' ctx' →
      ∃ F, row.Gains ctx ctx' row' F ∧ SummandGives kb s F := by
    intro s _ ctx ctx' row row' hv hrow hrun
    obtain ⟨bs, ctx₂, hbindings, hloop⟩ := GroundM.runs_bind.mp hrun
    obtain ⟨hbs, rfl⟩ := runs_summandBindings hbindings
    obtain ⟨Fs, hFs, hgains⟩ := GroundRow.gains_foldlM
      (fun b _ _ _ _ _ hv hrow hb => runs_accumulate hv hrow hb) hv hrow hloop
    exact ⟨_, hgains, bs, Fs, hbs, hFs, rfl⟩
  obtain ⟨Fs, hFs, hgains⟩ := GroundRow.gains_foldlM hstep hv (Tally.known_nil ctx₁) hrest
  exact ⟨_, hgains, ss, Fs, hss, hFs, rfl⟩

/-! ### Constraints -/

/-- The quantities that the instances of a constraint are given, one for each binding. One that does not
vary satisfies the relation up to the tolerance. -/
def ConstraintGives (kb : KnowledgeBase ℚ Id) (c : Constraint ℚ) (Fs : List Quantity) : Prop :=
  ∃ bs, kb.bindings c.query? = .ok bs ∧ List.Forall₂ (fun b F =>
    ExprGives kb (c.relation.canonical.substitute b) F
      ∧ (¬ F.Varies → c.relation.Tolerates (F 0))) bs Fs

theorem runs_bindings {c : Constraint ℚ} {bs : List (Binding ℚ)}
    (h : GroundM.Runs (bindings kb c) ctx bs ctx') : kb.bindings c.query? = .ok bs ∧ ctx' = ctx := by
  cases c with
  | single r =>
    obtain ⟨rfl, rfl⟩ := GroundM.runs_pure.mp h
    exact ⟨rfl, rfl⟩
  | forAll q r =>
    obtain ⟨ts, ctx₁, hrequest, hpure⟩ := GroundM.runs_bind.mp h
    obtain ⟨hask, rfl⟩ := GroundM.runs_request.mp hrequest
    obtain ⟨rfl, rfl⟩ := GroundM.runs_pure.mp hpure
    exact ⟨exceptT_bind_eq_ok_iff.mpr ⟨ts, hask, rfl⟩, rfl⟩

/-- A row holds when its constant satisfies the relation up to the tolerance. -/
theorem tolerates_of_holds {r : Relation ℚ} {row : GroundRow ℚ} (h : row.holds r.kind = true) :
    r.Tolerates row.constant := by
  have htolerance : (GroundRow.zeroTolerance : ℚ) = 1e-9 := rfl
  rw [Relation.Tolerates, Relation.isEquality]
  unfold GroundRow.holds at h
  cases hkind : r.kind <;> rw [hkind] at h <;> simpa [Scalar.abs_rat, htolerance] using h

/-- **A constraint gains the rows of its instances that vary.** -/
theorem gains_groundConstraint {c : Constraint ℚ} (hctx : ctx.Consistent)
    (h : GroundM.Runs (groundConstraint kb c) ctx () ctx') :
    ∃ Fs, ConstraintGives kb c Fs
      ∧ ctx.Gains ctx' (.all (Fs.map (Gained.ofRow c.relation.isEquality))) := by
  obtain ⟨bs, ctx₁, hbindings, hloop⟩ := GroundM.runs_bind.mp h
  obtain ⟨hbs, rfl⟩ := runs_bindings hbindings
  -- an instance first gains columns for its decision variables, then its row
  have hstep : ∀ b ∈ bs, ∀ {ctx₂ ctx₃}, ctx₁.Grows ctx₂ → ctx₂.Consistent →
      GroundM.Runs (affine kb (c.relation.canonical.substitute b) >>= fun row =>
        GroundM.pushRow c row >>= fun _ => pure ()) ctx₂ () ctx₃ →
      ∃ F, (ExprGives kb (c.relation.canonical.substitute b) F
          ∧ (¬ F.Varies → c.relation.Tolerates (F 0)))
        ∧ ctx₂.Gains ctx₃ (.ofRow c.relation.isEquality F) := by
    intro b _ ctx₂ ctx₃ _ hconsistent hrun
    obtain ⟨row, ctx₄, haffine, hrest⟩ := GroundM.runs_bind.mp hrun
    obtain ⟨kept, ctx₅, hpush, hpure⟩ := GroundM.runs_bind.mp hrest
    obtain ⟨-, rfl⟩ := GroundM.runs_pure.mp hpure
    obtain ⟨F, hrow, hF⟩ := runs_affine hconsistent.valid haffine
    have hconsistent' := (hrow.widens.gains hconsistent).consistent
    obtain ⟨hgains, hholds⟩ := GroundingContext.gains_pushRow hconsistent' hrow.known hpush
    have hquantity := hrow.quantity_eq
    rw [hquantity] at hgains hholds
    refine ⟨F, ⟨hF, fun hconstant => ?_⟩, .of_widens hrow.widens hconsistent hgains⟩
    rw [← hquantity, GroundRow.quantity, GroundRow.valueAt_zero]
    exact tolerates_of_holds (hholds hconstant)
  obtain ⟨Fs, hFs, hgains⟩ := GroundingContext.gains_forM hstep hctx hloop
  rw [zipWith_eq_map_of_forall₂ hFs] at hgains
  exact ⟨Fs, ⟨bs, hbs, hFs⟩, hgains⟩

/-! ### The objective and the model -/

/-- The quantity that an objective is given, zero without an objective. -/
def ObjectiveGives (kb : KnowledgeBase ℚ Id) : Option (Expr ℚ) → Quantity → Prop
  | none, F => F = fun _ => 0
  | some e, F => ExprGives kb e F

/-- **The objective gains what varies** in the quantity that it is given. -/
theorem gains_groundObjective {e : Option (Expr ℚ)} (hctx : ctx.Consistent)
    (h : GroundM.Runs (e.forM (groundObjective kb)) ctx () ctx') :
    ∃ F, ObjectiveGives kb e F ∧ ctx.Gains ctx' (.ofObjective fun x => F x - F 0) := by
  cases e with
  | none =>
    obtain ⟨-, rfl⟩ := GroundM.runs_pure.mp h
    refine ⟨_, rfl, ?_⟩
    rw [sub_self]
    exact .refl hctx
  | some e =>
    obtain ⟨row, ctx₁, haffine, hloop⟩ := GroundM.runs_bind.mp h
    obtain ⟨F, hrow, hF⟩ := runs_affine hctx.valid haffine
    have hconsistent := (hrow.widens.gains hctx).consistent
    have hgains := GroundingContext.gains_addEntries hconsistent hrow.known hloop
    have hvalue : ∀ x, row.valueAt ctx₁ x = F x := fun x => congrFun hrow.quantity_eq x
    simp only [hvalue] at hgains
    exact ⟨F, hF, .of_widens hrow.widens hctx hgains⟩

/-- **A model grounded by instances**: the finished context has collected the objective and the instances
of all constraints. -/
theorem exists_of_ground {model : Model ℚ} {g : Grounded ℚ} (h : ground kb model = .ok g) :
    ∃ (ctx : GroundingContext ℚ) (F : Quantity) (Fss : List (List Quantity)),
      g = ctx.finish ∧ ctx.Collects model F Fss ∧ ObjectiveGives kb model.objective F
        ∧ List.Forall₂ (ConstraintGives kb) model.constraints Fss := by
  obtain ⟨⟨u, ctx⟩, hrun, hfinish⟩ := exceptT_bind_eq_ok_iff.mp h
  obtain ⟨u₁, ctx₁, hobjective, hconstraints⟩ := GroundM.runs_bind.mp hrun
  obtain ⟨F, hF, hgains⟩ := gains_groundObjective (GroundingContext.consistent_start model) hobjective
  obtain ⟨Fss, hFss, hgains'⟩ := GroundingContext.gains_forM
    (fun c _ _ _ _ hctx hc => gains_groundConstraint hctx hc) hgains.consistent hconstraints
  exact ⟨ctx, F, Fss, (Except.ok.inj hfinish).symm,
    GroundingContext.collects_of_gains hgains hgains', hF, hFss⟩

end Instances

end RelationalLP
