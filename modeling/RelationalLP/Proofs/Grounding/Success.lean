import Mathlib
import RelationalLP.Proofs.Grounding.InstanceRows

/-! # When grounding succeeds

Runs that are known to succeed, with what they gain. A column is found where the predicate is declared and
the atom is ground, and a row is finished where it has decision variables or holds. Grounding by
instances succeeds where every number that it needs is given, and then it collects what is given. -/

namespace RelationalLP

/-! ### Steps -/

namespace GroundM

variable {K : Type} [Scalar K] {ctx : GroundingContext K}

/-- A ground atom of a declared predicate has a column. -/
theorem exists_runs_column {a g : Atom K} {b : Binding K}
    (ha : (ctx.model.decisionIndex? a.template).isSome) (hg : a.groundAt b.get? = some g) :
    ∃ key ctx', Runs (column a b) ctx key ctx' := by
  obtain ⟨t, ht⟩ := Option.isSome_iff_exists.mp ha
  obtain ⟨tuple, -, rfl⟩ := Atom.groundAt_eq_some_iff.mp hg
  refine ⟨_, _, runs_update.mpr (GroundingContext.column_eq_ok_iff.mpr ⟨t, tuple, ht, ?_, rfl, rfl⟩)⟩
  exact Atom.ground?_substitute_eq_some_iff.mpr hg

/-- A row with decision variables is finished, and one without that holds. -/
theorem exists_runs_pushRow (ctx : GroundingContext K) {c : Constraint K} {row : GroundRow K}
    (h : row.hasDecisions = false → row.holds c.relation.kind = true) :
    ∃ kept ctx', Runs (pushRow c row) ctx kept ctx' := by
  have hpush : ∃ kept ctx', ctx.pushRow c.relation.kind row c.render = .ok (kept, ctx') := by
    unfold GroundingContext.pushRow
    cases hdecisions : row.hasDecisions with
    | true =>
      rw [if_pos rfl]
      cases c.relation.kind <;> exact ⟨_, _, rfl⟩
    | false =>
      rw [if_neg Bool.false_ne_true, if_pos (h hdecisions)]
      exact ⟨_, _, rfl⟩
  obtain ⟨kept, ctx', hpush⟩ := hpush
  exact ⟨kept, ctx', runs_update.mpr hpush⟩

end GroundM

/-- The decision variables of an expression belong to declared predicates. -/
def Expr.Declared {K : Type} [Scalar K] (model : Model K) (e : Expr K) : Prop :=
  ∀ ss, e.summands = .ok ss → ∀ s ∈ ss, ∀ a, s.decision? = some a →
    (model.decisionIndex? a.template).isSome

variable {model : Model ℚ}

/-! ### Rows -/

namespace GroundRow

/-- **Additions to rows**: in every context of a model a computation succeeds, and the row gains a
quantity. -/
def Adds (model : Model ℚ) (f : GroundRow ℚ → GroundM ℚ Id (GroundRow ℚ)) (F : Quantity) : Prop :=
  ∀ ⦃ctx row⦄, ctx.Valid → ctx.model = model → row.entries.Known ctx →
    ∃ row' ctx', GroundM.Runs (f row) ctx row' ctx' ∧ row.Gains ctx ctx' row' F

theorem Adds.congr {f : GroundRow ℚ → GroundM ℚ Id (GroundRow ℚ)} {F G : Quantity}
    (h : Adds model f F) (heq : ∀ x, G x = F x) : Adds model f G := by
  intro ctx row hv hmodel hrow
  obtain ⟨row', ctx', hrun, hgains⟩ := h hv hmodel hrow
  exact ⟨row', ctx', hrun, hgains.congr heq⟩

/-- A loop adds what its steps add. -/
theorem adds_foldlM {α : Type} {f : GroundRow ℚ → α → GroundM ℚ Id (GroundRow ℚ)} {xs : List α}
    {Fs : List Quantity} (h : List.Forall₂ (fun x F => Adds model (f · x) F) xs Fs) :
    Adds model (xs.foldlM f ·) fun x => (Fs.map (· x)).sum := by
  induction h with
  | nil =>
    intro ctx row _ _ hrow
    exact ⟨row, ctx, GroundM.runs_foldlM_nil.mpr ⟨rfl, rfl⟩, .refl hrow⟩
  | cons hx _ ih =>
    intro ctx row hv hmodel hrow
    obtain ⟨row₁, ctx₁, hrun, hgains⟩ := hx hv hmodel hrow
    obtain ⟨row₂, ctx₂, hrun', hgains'⟩ := ih (hgains.widens.valid hv)
      (hgains.widens.model_eq.trans hmodel) hgains.known
    exact ⟨row₂, ctx₂, GroundM.runs_foldlM_cons.mpr ⟨row₁, ctx₁, hrun, hrun'⟩, hgains.trans hgains'⟩

end GroundRow

/-! ### Contexts -/

namespace GroundM

variable {α β σ : Type}

/-- **Achievements**: in every consistent context of a model a computation succeeds and gains something. -/
def Achieves (model : Model ℚ) (x : GroundM ℚ Id α) (g : Gained) : Prop :=
  ∀ ⦃ctx⦄, ctx.Consistent → ctx.model = model → ∃ a ctx', Runs x ctx a ctx' ∧ ctx.Gains ctx' g

/-- One computation after another. -/
theorem Achieves.bind {x : GroundM ℚ Id α} {f : α → GroundM ℚ Id β} {g g' : Gained}
    (hx : Achieves model x g) (hf : ∀ a, Achieves model (f a) g') :
    Achieves model (x >>= f) (g.followedBy g') := by
  intro ctx hctx hmodel
  obtain ⟨a, ctx₁, hrun, hgains⟩ := hx hctx hmodel
  obtain ⟨b, ctx₂, hrun', hgains'⟩ := hf a hgains.consistent (hgains.grows.model_eq.trans hmodel)
  exact ⟨b, ctx₂, runs_bind.mpr ⟨a, ctx₁, hrun, hrun'⟩, hgains.trans hgains'⟩

/-- A loop achieves what its steps achieve, whatever its state is. -/
theorem achieves_foldlM {f : σ → β → GroundM ℚ Id σ} {xs : List β} {gs : List Gained}
    (h : List.Forall₂ (fun x g => ∀ a, Achieves model (f a x) g) xs gs) (a : σ) :
    Achieves model (xs.foldlM f a) (.all gs) := by
  induction h generalizing a with
  | nil => exact fun ctx hctx _ => ⟨a, ctx, runs_foldlM_nil.mpr ⟨rfl, rfl⟩, .refl hctx⟩
  | cons hx _ ih =>
    rw [List.foldlM_cons]
    exact (hx a).bind ih

theorem achieves_forM {f : β → GroundM ℚ Id Unit} {xs : List β} {gs : List Gained}
    (h : List.Forall₂ (fun x g => Achieves model (f x) g) xs gs) :
    Achieves model (xs.forM f) (.all gs) := by
  intro ctx hctx hmodel
  obtain ⟨u, ctx', hrun, hgains⟩ :=
    achieves_foldlM (h.imp fun x g hx _ => hx) () hctx hmodel
  exact ⟨(), ctx', runs_forM_iff_foldlM.mpr hrun, hgains⟩

/-- **Finishing a row** achieves its quantity, if it varies or holds. -/
theorem exists_gains_pushRow {ctx : GroundingContext ℚ} (hctx : ctx.Consistent) {c : Constraint ℚ}
    {row : GroundRow ℚ} (hrow : row.entries.Known ctx)
    (h : ¬ (row.quantity ctx).Varies → row.holds c.relation.kind = true) :
    ∃ kept ctx', Runs (pushRow c row) ctx kept ctx'
      ∧ ctx.Gains ctx' (.ofRow c.relation.isEquality (row.quantity ctx)) := by
  have hholds : row.hasDecisions = false → row.holds c.relation.kind = true := fun hd =>
    h fun hvaries => by
      rw [(GroundRow.hasDecisions_iff hrow).mpr hvaries] at hd
      cases hd
  obtain ⟨kept, ctx', hrun⟩ := exists_runs_pushRow ctx hholds
  exact ⟨kept, ctx', hrun, (GroundingContext.gains_pushRow hctx hrow hrun).1⟩

end GroundM

/-! ### Instances -/

/-- The decision variables of all instances of a constraint belong to declared predicates. -/
def Constraint.Declared (kb : KnowledgeBase ℚ Id) (model : Model ℚ) (c : Constraint ℚ) : Prop :=
  ∀ bs, kb.bindings c.query? = .ok bs → ∀ b ∈ bs, (c.relation.canonical.substitute b).Declared model

namespace Instances

variable {kb : KnowledgeBase ℚ Id} {ctx : GroundingContext ℚ} {b : Binding ℚ}

theorem FactorGives.runs {f : Factor ℚ} {q : ℚ} (h : FactorGives kb b f q) :
    GroundM.Runs (factorValue kb b f) ctx q ctx := by
  cases h with
  | symbol h =>
    rw [factorValue, h]
    exact GroundM.runs_pure.mpr ⟨rfl, rfl⟩
  | @atom a g q _ hg hq =>
    have hground : (!(a.substitute b).isGround) = false := by
      rw [Atom.substitute_of_groundAt hg, Atom.isGround_of_groundAt hg]
      rfl
    rw [factorValue, hground, if_neg Bool.false_ne_true]
    refine GroundM.runs_bind.mpr ⟨some q, ctx, GroundM.runs_request.mpr ⟨?_, rfl⟩,
      GroundM.runs_pure.mpr ⟨rfl, rfl⟩⟩
    rw [Atom.substitute_of_groundAt hg]
    exact hq

theorem runs_of_factorsGive (ctx : GroundingContext ℚ) {fs : List (Factor ℚ)} {qs : List ℚ}
    (h : List.Forall₂ (FactorGives kb b) fs qs) (c : ℚ) :
    GroundM.Runs (fs.foldlM (fun v f => return v * (← factorValue kb b f)) c) ctx (c * qs.prod) ctx := by
  induction h generalizing c with
  | nil =>
    rw [List.prod_nil, mul_one]
    exact GroundM.runs_foldlM_nil.mpr ⟨rfl, rfl⟩
  | @cons f q fs qs hf _ ih =>
    rw [List.prod_cons, ← mul_assoc]
    refine GroundM.runs_foldlM_cons.mpr ⟨c * q, ctx, ?_, ih (c * q)⟩
    exact GroundM.runs_bind.mpr ⟨q, ctx, hf.runs, GroundM.runs_pure.mpr ⟨rfl, rfl⟩⟩

/-- A product whose decision variable is declared adds the quantity that it is given. -/
theorem ProductGives.adds {s : Summand ℚ} {F : Quantity} (h : ProductGives kb s b F)
    (hs : ∀ a, s.decision? = some a → (model.decisionIndex? a.template).isSome) :
    GroundRow.Adds model (accumulate kb s · b) F := by
  intro ctx row hv hmodel hrow
  obtain ⟨qs, D, hqs, hD, rfl⟩ := h
  have hfactors := runs_of_factorsGive ctx hqs s.coefficient
  cases hd : s.decision? with
  | none =>
    -- without a decision variable the product is added to the constant
    rw [hd] at hD
    cases hD
    refine ⟨row.addConstant (s.coefficient * qs.prod), ctx,
      GroundM.runs_bind.mpr ⟨_, _, hfactors, ?_⟩, (GroundRow.gains_addConstant hrow _).congr fun x => ?_⟩
    · rw [hd]
      exact GroundM.runs_pure.mpr ⟨rfl, rfl⟩
    · exact mul_one _
  | some a =>
    rw [hd] at hD
    cases hD with
    | some hg =>
      -- the model stays the same while rows are made, so the variable is still declared
      have hdeclared : (ctx.model.decisionIndex? a.template).isSome := by
        rw [hmodel]
        exact hs a hd
      obtain ⟨key, ctx', hcolumn⟩ := GroundM.exists_runs_column hdeclared hg
      obtain ⟨g', hg', hgains⟩ := GroundRow.gains_column hv hrow hcolumn (s.coefficient * qs.prod)
      obtain rfl := Option.some.inj (hg.symm.trans hg')
      refine ⟨_, ctx', GroundM.runs_bind.mpr ⟨_, _, hfactors, ?_⟩, hgains⟩
      rw [hd]
      exact GroundM.runs_bind.mpr ⟨key, ctx', hcolumn, GroundM.runs_pure.mpr ⟨rfl, rfl⟩⟩

theorem runs_summandBindings_of {s : Summand ℚ} {bs : List (Binding ℚ)}
    (h : kb.bindings s.query = .ok bs) : GroundM.Runs (summandBindings kb s) ctx bs ctx := by
  rw [summandBindings]
  cases hq : s.query with
  | none =>
    rw [hq] at h
    exact GroundM.runs_pure.mpr ⟨(Except.ok.inj h).symm, rfl⟩
  | some q =>
    rw [hq] at h
    obtain ⟨ts, hts, hbs⟩ := exceptT_bind_eq_ok_iff.mp h
    exact GroundM.runs_bind.mpr ⟨ts, ctx, GroundM.runs_request.mpr ⟨hts, rfl⟩,
      GroundM.runs_pure.mpr ⟨(Except.ok.inj hbs).symm, rfl⟩⟩

/-- **An expression adds the quantity that it is given** to the row of zeros. -/
theorem ExprGives.exists_runs {e : Expr ℚ} {F : Quantity} (h : ExprGives kb e F)
    (he : e.Declared model) (hv : ctx.Valid) (hmodel : ctx.model = model) :
    ∃ row ctx', GroundM.Runs (affine kb e) ctx row ctx' ∧ GroundRow.empty.Gains ctx ctx' row F := by
  obtain ⟨ss, Fs, hss, hFs, rfl⟩ := h
  have hsummands : List.Forall₂ (fun s F => GroundRow.Adds model
      (fun row => summandBindings kb s >>= fun bs => bs.foldlM (accumulate kb s) row) F) ss Fs := by
    refine ((List.forall₂_and_left _ _).mpr ⟨he ss hss, hFs⟩).imp ?_
    rintro s F ⟨hs, bs, Gs, hbs, hGs, rfl⟩ ctx row hv hmodel hrow
    obtain ⟨row', ctx', hrun, hgains⟩ :=
      GroundRow.adds_foldlM (hGs.imp fun b G hG => hG.adds hs) hv hmodel hrow
    exact ⟨row', ctx', GroundM.runs_bind.mpr ⟨bs, ctx, runs_summandBindings_of hbs, hrun⟩, hgains⟩
  have hempty : (GroundRow.empty : GroundRow ℚ).entries.Known ctx := Tally.known_nil ctx
  obtain ⟨row, ctx', hrun, hgains⟩ :=
    GroundRow.adds_foldlM hsummands hv hmodel (hempty : GroundRow.empty.entries.Known ctx)
  exact ⟨row, ctx', GroundM.runs_bind.mpr ⟨ss, ctx, GroundM.runs_expression.mpr ⟨hss, rfl⟩, hrun⟩,
    hgains⟩

/-- A row holds whose constant satisfies the relation up to the tolerance. -/
theorem holds_of_tolerates {r : Relation ℚ} {row : GroundRow ℚ} (h : r.Tolerates row.constant) :
    row.holds r.kind = true := by
  have htolerance : (GroundRow.zeroTolerance : ℚ) = 1e-9 := rfl
  rw [Relation.Tolerates, Relation.isEquality] at h
  unfold GroundRow.holds
  cases hkind : r.kind <;> rw [hkind] at h <;> simpa [Scalar.abs_rat, htolerance] using h

theorem runs_bindings_of {c : Constraint ℚ} {bs : List (Binding ℚ)}
    (h : kb.bindings c.query? = .ok bs) : GroundM.Runs (bindings kb c) ctx bs ctx := by
  cases c with
  | single r => exact GroundM.runs_pure.mpr ⟨(Except.ok.inj h).symm, rfl⟩
  | forAll q r =>
    obtain ⟨ts, hts, hbs⟩ := exceptT_bind_eq_ok_iff.mp h
    exact GroundM.runs_bind.mpr ⟨ts, ctx, GroundM.runs_request.mpr ⟨hts, rfl⟩,
      GroundM.runs_pure.mpr ⟨(Except.ok.inj hbs).symm, rfl⟩⟩

/-- **A constraint achieves the rows of its instances that vary.** -/
theorem ConstraintGives.achieves {c : Constraint ℚ} {Fs : List Quantity} (h : ConstraintGives kb c Fs)
    (hc : c.Declared kb model) :
    GroundM.Achieves model (groundConstraint kb c)
      (.all (Fs.map (Gained.ofRow c.relation.isEquality))) := by
  intro ctx hctx hmodel
  obtain ⟨bs, hbs, hFs⟩ := h
  have hrows : List.Forall₂ (fun b g => GroundM.Achieves model
      (affine kb (c.relation.canonical.substitute b) >>= fun row =>
        GroundM.pushRow c row >>= fun _ => pure ()) g) bs
      (Fs.map (Gained.ofRow c.relation.isEquality)) := by
    rw [List.forall₂_map_right_iff]
    refine ((List.forall₂_and_left _ _).mpr ⟨hc bs hbs, hFs⟩).imp ?_
    rintro b F ⟨hdeclared, hF, hholds⟩ ctx hctx hmodel
    obtain ⟨row, ctx₁, hrun, hgains⟩ := hF.exists_runs hdeclared hctx.valid hmodel
    have hquantity := hgains.quantity_eq
    -- a row without decision variables is dropped if it holds, and it is its constant that decides
    obtain ⟨kept, ctx₂, hpush, hgains'⟩ := GroundM.exists_gains_pushRow (c := c)
      (hgains.widens.gains hctx).consistent hgains.known fun hconstant => by
        have hzero : row.constant = F 0 := by
          rw [← GroundRow.valueAt_zero ctx₁ row, ← hquantity]
          rfl
        rw [hquantity] at hconstant
        exact holds_of_tolerates (hzero ▸ hholds hconstant)
    rw [hquantity] at hgains'
    refine ⟨(), ctx₂, GroundM.runs_bind.mpr ⟨row, ctx₁, hrun, GroundM.runs_bind.mpr
      ⟨kept, ctx₂, hpush, GroundM.runs_pure.mpr ⟨rfl, rfl⟩⟩⟩, .of_widens hgains.widens hctx hgains'⟩
  obtain ⟨u, ctx', hrun, hgains⟩ := GroundM.achieves_forM hrows hctx hmodel
  exact ⟨u, ctx', GroundM.runs_bind.mpr ⟨bs, ctx, runs_bindings_of hbs, hrun⟩, hgains⟩

/-- The entries of a row are added to the objective without fail. -/
theorem exists_runs_addEntries (ctx : GroundingContext ℚ) (es : Tally ℚ) : ∃ ctx', GroundM.Runs
    (es.forM fun (key, q) => GroundM.addObjective key q : GroundM ℚ Id Unit) ctx () ctx' := by
  induction es generalizing ctx with
  | nil => exact ⟨ctx, GroundM.runs_forM_nil.mpr rfl⟩
  | cons e es ih =>
    obtain ⟨ctx', hrun⟩ := ih (ctx.addObjective e.1 e.2)
    exact ⟨ctx', GroundM.runs_forM_cons.mpr ⟨_, GroundM.runs_addObjective.mpr rfl, hrun⟩⟩

/-- **The objective achieves what varies** in the quantity that it is given. -/
theorem ObjectiveGives.achieves {e : Option (Expr ℚ)} {F : Quantity} (h : ObjectiveGives kb e F)
    (he : ∀ e' ∈ e, e'.Declared model) :
    GroundM.Achieves model (e.forM (groundObjective kb)) (.ofObjective fun x => F x - F 0) := by
  intro ctx hctx hmodel
  cases e with
  | none =>
    obtain rfl : F = fun _ => 0 := h
    refine ⟨(), ctx, GroundM.runs_pure.mpr ⟨rfl, rfl⟩, ?_⟩
    simp only [sub_self]
    exact .refl hctx
  | some e =>
    obtain ⟨row, ctx₁, hrun, hgains⟩ := ExprGives.exists_runs h (he e rfl) hctx.valid hmodel
    obtain ⟨ctx₂, hloop⟩ := exists_runs_addEntries ctx₁ row.entries
    have hadded := GroundingContext.gains_addEntries (hgains.widens.gains hctx).consistent
      hgains.known hloop
    have hvalue : ∀ x, row.valueAt ctx₁ x = F x := fun x => congrFun hgains.quantity_eq x
    simp only [hvalue] at hadded
    exact ⟨(), ctx₂, GroundM.runs_bind.mpr ⟨row, ctx₁, hrun, hloop⟩,
      .of_widens hgains.widens hctx hadded⟩

/-- **Grounding by instances succeeds** where the objective and all instances of the constraints are given
quantities, and collects these. -/
theorem exists_ground_of_gives {F : Quantity} {Fss : List (List Quantity)}
    (hF : ObjectiveGives kb model.objective F) (he : ∀ e ∈ model.objective, e.Declared model)
    (hFss : List.Forall₂ (ConstraintGives kb) model.constraints Fss)
    (hc : ∀ c ∈ model.constraints, c.Declared kb model) :
    ∃ ctx, ground kb model = .ok (GroundingContext.finish ctx) ∧ ctx.Collects model F Fss := by
  have hstart := GroundingContext.consistent_start model
  obtain ⟨u, ctx₁, hobjective, hgains⟩ := hF.achieves he hstart rfl
  have hconstraints : List.Forall₂ (fun c g => GroundM.Achieves model (groundConstraint kb c) g)
      model.constraints (List.zipWith (fun c Fs =>
        .all (Fs.map (Gained.ofRow c.relation.isEquality))) model.constraints Fss) :=
    forall₂_zipWith_right ((List.forall₂_and_left _ _).mpr ⟨hc, hFss⟩) fun c Fs h =>
      ConstraintGives.achieves h.2 h.1
  obtain ⟨u', ctx₂, hloop, hgains'⟩ := GroundM.achieves_forM hconstraints hgains.consistent
    hgains.grows.model_eq
  refine ⟨ctx₂, ?_, GroundingContext.collects_of_gains hgains hgains'⟩
  exact exceptT_bind_eq_ok_iff.mpr ⟨((), ctx₂), GroundM.runs_bind.mpr ⟨_, _, hobjective, hloop⟩, rfl⟩

end Instances

end RelationalLP
