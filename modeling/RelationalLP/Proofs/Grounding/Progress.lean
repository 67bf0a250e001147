import Mathlib
import RelationalLP.Proofs.Grounding.Rows

/-! # Progress of grounding

What has been grounded so far stands for quantities: one for the objective, and one for each finished
row. Grounding a part of a model adds to the objective and puts rows behind the others, and what a loop
adds is what its steps add. -/

namespace RelationalLP

/-- What grounding adds to the objective and to the rows of each kind, equations or inequalities. -/
structure Gained where
  /-- What is added to the objective. -/
  objective : Quantity
  /-- The rows that are added, the equations for true. -/
  rows : Bool → List Quantity

namespace Gained

/-- Nothing is added. -/
def nothing : Gained := ⟨fun _ => 0, fun _ => []⟩

/-- One thing after another is added. -/
def followedBy (g g' : Gained) : Gained :=
  ⟨fun x => g.objective x + g'.objective x, fun e => g.rows e ++ g'.rows e⟩

/-- Some things are added in order. -/
def all (gs : List Gained) : Gained := gs.foldr followedBy nothing

/-- A quantity is added to the objective. -/
def ofObjective (F : Quantity) : Gained := ⟨F, fun _ => []⟩

/-- A row is added if it varies. -/
noncomputable def ofRow (isEquality : Bool) (F : Quantity) : Gained :=
  ⟨fun _ => 0, fun e => if e = isEquality ∧ F.Varies then [F] else []⟩

theorem nothing_followedBy (g : Gained) : nothing.followedBy g = g := by
  simp [followedBy, nothing]

theorem objective_all (gs : List Gained) (x : Atom ℚ → ℚ) :
    (all gs).objective x = (gs.map (·.objective x)).sum := by
  induction gs with
  | nil => rfl
  | cons g gs ih => rw [List.map_cons, List.sum_cons, ← ih]; rfl

theorem rows_all (gs : List Gained) (e : Bool) : (all gs).rows e = gs.flatMap (·.rows e) := by
  induction gs with
  | nil => rfl
  | cons g gs ih => rw [List.flatMap_cons, ← ih]; rfl

/-- Quantities that are added to the objective one after another add up. -/
theorem all_ofObjective {α : Type} (F : α → Quantity) (xs : List α) :
    all (xs.map fun x => ofObjective (F x)) = ofObjective fun y => (xs.map (F · y)).sum := by
  have hobjective : (all (xs.map fun x => ofObjective (F x))).objective
      = fun y => (xs.map (F · y)).sum := by
    funext y
    rw [objective_all, List.map_map]
    rfl
  have hrows : (all (xs.map fun x => ofObjective (F x))).rows = fun _ => [] := by
    funext e
    rw [rows_all, List.flatMap_map]
    exact List.flatMap_eq_nil_iff.mpr fun _ _ => rfl
  rw [ofObjective, ← hobjective, ← hrows]

/-- Rows that are added one after another are kept if they vary. -/
theorem rows_all_ofRow (isEquality : Bool) (Fs : List Quantity) (e : Bool) :
    (all (Fs.map (ofRow isEquality))).rows e
      = Fs.filter fun F => isEquality = e ∧ F.Varies := by
  rw [rows_all, List.flatMap_map]
  induction Fs with
  | nil => rfl
  | cons F Fs ih =>
    rw [List.flatMap_cons, ih, List.filter_cons, ofRow]
    by_cases hkept : isEquality = e ∧ F.Varies
    · simp [hkept]
    · have hnot : ¬ (e = isEquality ∧ F.Varies) := fun h => hkept ⟨h.1.symm, h.2⟩
      simp [hkept, hnot]

/-- Rows leave the objective alone. -/
theorem objective_all_ofRow (isEquality : Bool) (Fs : List Quantity) (x : Atom ℚ → ℚ) :
    (all (Fs.map (ofRow isEquality))).objective x = 0 := by
  rw [objective_all, List.map_map]
  exact List.sum_eq_zero (List.forall_mem_map.mpr fun F _ => rfl)

end Gained

namespace GroundingContext

/-- The finished rows of a kind: equations or inequalities. -/
def rows {K : Type} [Scalar K] (ctx : GroundingContext K) (isEquality : Bool) : List (GroundRow K) :=
  if isEquality then ctx.equalities else ctx.inequalities

variable {ctx ctx' : GroundingContext ℚ}

/-- The quantities of the finished rows of a kind. -/
def quantities (ctx : GroundingContext ℚ) (isEquality : Bool) : List Quantity :=
  (ctx.rows isEquality).map (·.quantity ctx)

/-- The value of the objective under an assignment of the decision variables. -/
def objectiveAt (ctx : GroundingContext ℚ) (x : Atom ℚ → ℚ) : ℚ := weigh (ctx.valueAt x) ctx.objective

/-! ### Consistent contexts -/

/-- **Consistent contexts** are valid, and the keys of the objective and of all rows are known. -/
structure Consistent (ctx : GroundingContext ℚ) : Prop where
  /-- The columns have atoms. -/
  valid : ctx.Valid
  /-- The keys of the objective are known. -/
  objective : ctx.objective.Known ctx
  /-- The keys of the rows are known. -/
  rows : ∀ e, ∀ r ∈ ctx.rows e, r.entries.Known ctx

/-- Before anything is grounded there are no rows. -/
theorem quantities_start (model : Model ℚ) (e : Bool) : (start model).quantities e = [] := by
  cases e <;> rfl

/-- Before anything is grounded there are no keys. -/
theorem consistent_start (model : Model ℚ) : (start model).Consistent := by
  refine ⟨valid_start model, Tally.known_nil _, fun e r hr => ?_⟩
  cases e <;> exact absurd hr List.not_mem_nil

/-- **Progress**: from one context to another the objective and the rows of each kind gain something. -/
structure Gains (ctx ctx' : GroundingContext ℚ) (g : Gained) : Prop where
  /-- The context stays consistent. -/
  consistent : ctx'.Consistent
  /-- Columns are added at the end. -/
  grows : ctx.Grows ctx'
  /-- The objective gains a quantity. -/
  objective_eq : ∀ x, ctx'.objectiveAt x = ctx.objectiveAt x + g.objective x
  /-- The rows of each kind gain rows at the end. -/
  quantities_eq : ∀ e, ctx'.quantities e = ctx.quantities e ++ g.rows e

theorem Consistent.quantities_grows (h : ctx.Consistent) (hg : ctx.Grows ctx') (e : Bool) :
    (ctx.rows e).map (·.quantity ctx') = ctx.quantities e :=
  List.map_congr_left fun r hr => GroundRow.quantity_grows (h.rows e r hr) hg

theorem Gains.refl (h : ctx.Consistent) : ctx.Gains ctx .nothing :=
  ⟨h, .refl ctx, fun _ => (add_zero _).symm, fun _ => (List.append_nil _).symm⟩

theorem Gains.trans {ctx'' : GroundingContext ℚ} {g g' : Gained} (h : ctx.Gains ctx' g)
    (h' : ctx'.Gains ctx'' g') : ctx.Gains ctx'' (g.followedBy g') := by
  refine ⟨h'.consistent, h.grows.trans h'.grows, fun x => ?_, fun e => ?_⟩
  · rw [h'.objective_eq, h.objective_eq, add_assoc]
    rfl
  · rw [h'.quantities_eq, h.quantities_eq, List.append_assoc]
    rfl

/-- Widening gains nothing, and what is gained after it is all that is gained. -/
theorem Widens.gains (h : ctx.Widens ctx') (hc : ctx.Consistent) : ctx.Gains ctx' .nothing := by
  have hrows : ∀ e, ctx'.rows e = ctx.rows e := by
    intro e
    rw [GroundingContext.rows, GroundingContext.rows, h.equalities_eq, h.inequalities_eq]
  refine ⟨⟨h.valid hc.valid, ?_, fun e r hr => ?_⟩, h.toGrows, fun x => ?_, fun e => ?_⟩
  · rw [h.objective_eq]
    exact hc.objective.grows h.toGrows
  · rw [hrows] at hr
    exact (hc.rows e r hr).grows h.toGrows
  · rw [objectiveAt, h.objective_eq, hc.objective.weigh_grows h.toGrows]
    exact (add_zero _).symm
  · rw [quantities, hrows, hc.quantities_grows h.toGrows]
    exact (List.append_nil _).symm

theorem Gains.of_widens {ctx'' : GroundingContext ℚ} {g : Gained} (hw : ctx.Widens ctx')
    (hc : ctx.Consistent) (h : ctx'.Gains ctx'' g) : ctx.Gains ctx'' g := by
  rw [← g.nothing_followedBy]
  exact (hw.gains hc).trans h

/-! ### Loops -/

/-- A loop gains what its steps gain, one after another, whatever its state is. -/
theorem gains_foldlM {σ α β : Type} {f : σ → α → GroundM ℚ Id σ} {xs : List α}
    {added : α → β → Gained} {P : α → β → Prop}
    (hstep : ∀ x ∈ xs, ∀ {a b ctx₁ ctx₂}, ctx.Grows ctx₁ → ctx₁.Consistent →
      GroundM.Runs (f a x) ctx₁ b ctx₂ → ∃ y, P x y ∧ ctx₁.Gains ctx₂ (added x y))
    (hc : ctx.Consistent) {a b : σ} (h : GroundM.Runs (xs.foldlM f a) ctx b ctx') :
    ∃ ys, List.Forall₂ P xs ys ∧ ctx.Gains ctx' (.all (List.zipWith added xs ys)) := by
  induction xs generalizing ctx a with
  | nil =>
    obtain ⟨-, rfl⟩ := GroundM.runs_foldlM_nil.mp h
    exact ⟨[], .nil, .refl hc⟩
  | cons x xs ih =>
    obtain ⟨a₁, ctx₁, hfirst, hrest⟩ := GroundM.runs_foldlM_cons.mp h
    obtain ⟨y, hx, hgains⟩ := hstep x List.mem_cons_self (.refl ctx) hc hfirst
    obtain ⟨ys, hxs, hgains'⟩ := ih (fun z hz _ _ _ _ hgrows => hstep z
      (List.mem_cons_of_mem x hz) (hgains.grows.trans hgrows)) hgains.consistent hrest
    exact ⟨y :: ys, .cons hx hxs, hgains.trans hgains'⟩

theorem gains_forM {α β : Type} {f : α → GroundM ℚ Id Unit} {xs : List α} {added : α → β → Gained}
    {P : α → β → Prop}
    (hstep : ∀ x ∈ xs, ∀ {ctx₁ ctx₂}, ctx.Grows ctx₁ → ctx₁.Consistent →
      GroundM.Runs (f x) ctx₁ () ctx₂ → ∃ y, P x y ∧ ctx₁.Gains ctx₂ (added x y))
    (hc : ctx.Consistent) (h : GroundM.Runs (xs.forM f) ctx () ctx') :
    ∃ ys, List.Forall₂ P xs ys ∧ ctx.Gains ctx' (.all (List.zipWith added xs ys)) :=
  gains_foldlM (fun x hx _ _ _ _ hgrows hc hrun => hstep x hx hgrows hc hrun) hc
    (GroundM.runs_forM_iff_foldlM.mp h)

/-- A loop whose steps gain what is known of their items. -/
theorem gains_foldlM_map {σ α : Type} {f : σ → α → GroundM ℚ Id σ} {xs : List α} {added : α → Gained}
    (hstep : ∀ x ∈ xs, ∀ {a b ctx₁ ctx₂}, ctx.Grows ctx₁ → ctx₁.Consistent →
      GroundM.Runs (f a x) ctx₁ b ctx₂ → ctx₁.Gains ctx₂ (added x))
    (hc : ctx.Consistent) {a b : σ} (h : GroundM.Runs (xs.foldlM f a) ctx b ctx') :
    ctx.Gains ctx' (.all (xs.map added)) := by
  have hgained : ∀ x ∈ xs, ∀ {a b ctx₁ ctx₂}, ctx.Grows ctx₁ → ctx₁.Consistent →
      GroundM.Runs (f a x) ctx₁ b ctx₂ → ∃ g, g = added x ∧ ctx₁.Gains ctx₂ g :=
    fun x hx _ _ _ _ hgrows hc hrun => ⟨_, rfl, hstep x hx hgrows hc hrun⟩
  obtain ⟨gs, hgs, hgains⟩ := gains_foldlM hgained hc h
  rwa [zipWith_eq_map_of_forall₂ hgs, List.map_id', eq_map_of_forall₂ hgs fun _ _ _ heq => heq]
    at hgains

theorem gains_forM_map {α : Type} {f : α → GroundM ℚ Id Unit} {xs : List α} {added : α → Gained}
    (hstep : ∀ x ∈ xs, ∀ {ctx₁ ctx₂}, ctx.Grows ctx₁ → ctx₁.Consistent →
      GroundM.Runs (f x) ctx₁ () ctx₂ → ctx₁.Gains ctx₂ (added x))
    (hc : ctx.Consistent) (h : GroundM.Runs (xs.forM f) ctx () ctx') :
    ctx.Gains ctx' (.all (xs.map added)) :=
  gains_foldlM_map (fun x hx _ _ _ _ hgrows hc hrun => hstep x hx hgrows hc hrun) hc
    (GroundM.runs_forM_iff_foldlM.mp h)

/-! ### Steps -/

/-- **A finished row** is kept among those of its kind if it has decision variables, and otherwise it has
to hold. -/
theorem grows_of_pushRow {K : Type} [Scalar K] {ctx ctx' : GroundingContext K} {kind : RelationKind}
    {row : GroundRow K} {constraint : String} {kept : Bool}
    (h : ctx.pushRow kind row constraint = .ok (kept, ctx')) :
    ctx.Grows ctx' ∧ ctx'.columns = ctx.columns ∧ ctx'.objective = ctx.objective
      ∧ (∀ e, ctx'.rows e = ctx.rows e
        ++ if e = decide (kind = .eq) ∧ row.hasDecisions = true then [row] else [])
      ∧ kept = row.hasDecisions
      ∧ (row.hasDecisions = false → row.holds kind = true) := by
  have hgrows : ∀ (eqs ineqs : List (GroundRow K)), ctx.Grows
      { ctx with equalities := eqs, inequalities := ineqs } := fun _ _ =>
    ⟨rfl, fun _ => List.prefix_refl _, fun hv => ⟨hv.length_eq, hv.named⟩⟩
  unfold pushRow at h
  cases hdecisions : row.hasDecisions with
  | true =>
    -- the row is kept, among the equations or among the inequalities
    rw [if_pos hdecisions] at h
    have hafter : kept = true ∧ ctx' = if decide (kind = .eq) = true then
        { ctx with equalities := ctx.equalities ++ [row] }
        else { ctx with inequalities := ctx.inequalities ++ [row] } := by
      cases kind <;> exact (Prod.mk.inj (Except.ok.inj h)).imp Eq.symm Eq.symm
    obtain ⟨rfl, hafter⟩ := hafter
    cases hkind : decide (kind = .eq) with
    | true =>
      rw [hafter, hkind, if_pos rfl]
      refine ⟨hgrows _ _, rfl, rfl, fun e => ?_, rfl, nofun⟩
      cases e <;> simp [rows]
    | false =>
      rw [hafter, hkind, if_neg Bool.false_ne_true]
      refine ⟨hgrows _ _, rfl, rfl, fun e => ?_, rfl, nofun⟩
      cases e <;> simp [rows]
  | false =>
    -- the row is constant, so it is checked and dropped
    rw [if_neg (by rw [hdecisions]; exact Bool.false_ne_true)] at h
    split at h
    · rename_i hholds
      obtain ⟨rfl, rfl⟩ := Prod.mk.inj (Except.ok.inj h)
      refine ⟨.refl ctx, rfl, rfl, fun e => ?_, rfl, fun _ => hholds⟩
      rw [if_neg (fun hrow => Bool.false_ne_true hrow.2), List.append_nil]
    · cases h

/-- A row of a constraint is finished as one of its kind. -/
theorem runs_pushRow {c : Constraint ℚ} {row : GroundRow ℚ} {kept : Bool}
    (h : GroundM.Runs (GroundM.pushRow c row) ctx kept ctx') :
    ctx.Grows ctx' ∧ ctx'.objective = ctx.objective
      ∧ (∀ e, ctx'.rows e = ctx.rows e
        ++ if e = c.relation.isEquality ∧ row.hasDecisions = true then [row] else [])
      ∧ (row.hasDecisions = false → row.holds c.relation.kind = true) := by
  have hpush : ctx.pushRow c.relation.kind row c.render = .ok (kept, ctx') :=
    GroundM.runs_update.mp h
  obtain ⟨hgrows, -, hobjective, hrows, -, hholds⟩ := grows_of_pushRow hpush
  exact ⟨hgrows, hobjective, hrows, hholds⟩

/-- A finished row is gained if it varies. -/
theorem gains_pushRow (hc : ctx.Consistent) {c : Constraint ℚ} {row : GroundRow ℚ}
    (hrow : row.entries.Known ctx) {kept : Bool}
    (h : GroundM.Runs (GroundM.pushRow c row) ctx kept ctx') :
    ctx.Gains ctx' (.ofRow c.relation.isEquality (row.quantity ctx))
      ∧ (¬ (row.quantity ctx).Varies → row.holds c.relation.kind = true) := by
  obtain ⟨hgrows, hobjective, hrows, hholds⟩ := runs_pushRow h
  have hvaries := GroundRow.hasDecisions_iff hrow
  refine ⟨⟨⟨hgrows.valid hc.valid, ?_, fun e r hr => ?_⟩, hgrows, fun x => ?_, fun e => ?_⟩,
    fun hconstant => hholds (eq_false_of_ne_true fun hd => hconstant (hvaries.mp hd))⟩
  · rw [hobjective]
    exact hc.objective.grows hgrows
  · rw [hrows, List.mem_append] at hr
    rcases hr with hr | hr
    · exact (hc.rows e r hr).grows hgrows
    · split at hr
      · rw [List.mem_singleton.mp hr]
        exact hrow.grows hgrows
      · exact absurd hr List.not_mem_nil
  · rw [objectiveAt, hobjective, hc.objective.weigh_grows hgrows]
    exact (add_zero _).symm
  · rw [quantities, hrows, List.map_append, hc.quantities_grows hgrows, Gained.ofRow]
    simp only [hvaries, apply_ite (List.map _), List.map_singleton, List.map_nil,
      GroundRow.quantity_grows hrow hgrows]

/-- An entry of the objective is gained. -/
theorem gains_addObjective (hc : ctx.Consistent) {key : Position} {a : Atom ℚ}
    (ha : ctx.atomAt key = some a) (q : ℚ) :
    ctx.Gains (ctx.addObjective key q) (.ofObjective fun x => q * x a) := by
  have hgrows : ctx.Grows (ctx.addObjective key q) :=
    ⟨rfl, fun _ => List.prefix_refl _, fun hv => ⟨hv.length_eq, hv.named⟩⟩
  have hadded : (ctx.objective.add key q).Known ctx := hc.objective.add (by rw [ha]; rfl) q
  refine ⟨⟨hgrows.valid hc.valid, hadded.grows hgrows, fun e r hr => (hc.rows e r hr).grows hgrows⟩,
    hgrows, fun x => ?_, fun e => ?_⟩
  · have hsum := (hadded.weigh_grows hgrows x).trans (Tally.weigh_add _ _ _ _)
    rwa [valueAt_of_atomAt ha, mul_comm (x a)] at hsum
  · rw [Gained.ofObjective, List.append_nil]
    exact hc.quantities_grows hgrows e

/-- The entries of a row are gained by the objective, without the constant of the row. -/
theorem gains_addEntries (hc : ctx.Consistent) {row : GroundRow ℚ} (hrow : row.entries.Known ctx)
    (h : GroundM.Runs (row.entries.forM fun (key, q) => GroundM.addObjective key q) ctx () ctx') :
    ctx.Gains ctx' (.ofObjective fun x => row.valueAt ctx x - row.valueAt ctx 0) := by
  have hstep : ∀ p ∈ row.entries, ∀ {ctx₁ ctx₂}, ctx.Grows ctx₁ → ctx₁.Consistent →
      GroundM.Runs (GroundM.addObjective p.1 p.2) ctx₁ () ctx₂ →
      ctx₁.Gains ctx₂ (.ofObjective fun x => ctx.valueAt x p.1 * p.2) := by
    intro p hp ctx₁ ctx₂ hgrows hconsistent hrun
    obtain rfl := GroundM.runs_addObjective.mp hrun
    obtain ⟨a, ha⟩ := Option.isSome_iff_exists.mp (hrow.known p.1 (List.mem_map_of_mem hp))
    simp only [valueAt_of_atomAt ha, mul_comm]
    exact gains_addObjective hconsistent (hgrows.atomAt ha) p.2
  have hgains := gains_forM_map hstep hc h
  rw [Gained.all_ofObjective] at hgains
  have hlinear : ∀ x, row.valueAt ctx x - row.valueAt ctx 0 = weigh (ctx.valueAt x) row.entries := by
    intro x
    rw [GroundRow.valueAt_zero, GroundRow.valueAt, add_sub_cancel_right]
  simp only [hlinear]
  exact hgains

/-! ### Whole models -/

/-- **What a context has collected** of a model: a quantity as its objective, without the part that does
not vary, and for each constraint in order those of its quantities that vary. -/
structure Collects (ctx : GroundingContext ℚ) (model : Model ℚ) (F : Quantity)
    (Fss : List (List Quantity)) : Prop where
  /-- The context is consistent. -/
  consistent : ctx.Consistent
  /-- The context is one of the model. -/
  model_eq : ctx.model = model
  /-- The objective is that of the quantity. -/
  objective_eq : ∀ x, ctx.objectiveAt x = F x - F 0
  /-- The rows of each kind are those of the constraints. -/
  quantities_eq : ∀ e, ctx.quantities e = (List.zipWith (fun c Fs =>
    Fs.filter fun F : Quantity => c.relation.isEquality = e ∧ F.Varies) model.constraints Fss).flatten

/-- From the objective and then the rows of all constraints a context collects them. -/
theorem collects_of_gains {model : Model ℚ} {F : Quantity} {Fss : List (List Quantity)}
    (hobjective : (start model).Gains ctx (.ofObjective fun x => F x - F 0))
    (hconstraints : ctx.Gains ctx' (.all (List.zipWith (fun c Fs =>
      .all (Fs.map (Gained.ofRow c.relation.isEquality))) model.constraints Fss))) :
    ctx'.Collects model F Fss := by
  refine ⟨hconstraints.consistent, (hobjective.grows.trans hconstraints.grows).model_eq,
    fun x => ?_, fun e => ?_⟩
  · have hrows : ∀ g ∈ List.zipWith (fun c Fs => Gained.all (Fs.map
        (Gained.ofRow c.relation.isEquality))) model.constraints Fss, g.objective x = 0 := by
      intro g hg
      obtain ⟨i, hi, rfl⟩ := List.mem_iff_getElem.mp hg
      rw [List.getElem_zipWith]
      exact Gained.objective_all_ofRow _ _ x
    rw [hconstraints.objective_eq, hobjective.objective_eq, Gained.objective_all,
      List.sum_eq_zero (List.forall_mem_map.mpr hrows), add_zero]
    exact zero_add _
  · rw [hconstraints.quantities_eq, hobjective.quantities_eq, quantities_start, Gained.rows_all,
      List.flatMap_def, List.map_zipWith]
    simp only [Gained.rows_all_ofRow]
    rfl

end GroundingContext

end RelationalLP
