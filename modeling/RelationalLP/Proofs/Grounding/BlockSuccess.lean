import Mathlib
import RelationalLP.Proofs.Grounding.BlockRows
import RelationalLP.Proofs.Grounding.Success

/-! # When grounding by blocks succeeds

Bulk queries whose answers are known, and the quantities that they amount to: one for the objective, and
one for each key of a constraint. Where every summand has its answers, every decision variable a column
and every row decision variables or a constant that holds, grounding by blocks succeeds and collects
these quantities, the rows of a constraint in some order. -/

namespace RelationalLP

namespace Blocks

variable {model : Model ℚ} {fb : FactBase ℚ} {outer : Query ℚ} {s : Summand ℚ} {ts : List (Tuple ℚ)}
  {ctx : GroundingContext ℚ}

/-- The same quantities vary among two lists, up to their order. -/
def SameRows (Fs Fs' : List Quantity) : Prop :=
  (Fs.filter fun F : Quantity => F.Varies).Perm (Fs'.filter fun F : Quantity => F.Varies)

/-! ### Known answers -/

/-- **A summand delivers rows** under an outer query: its bulk query, with value symbols numbered from some
number on, has these answers, and each of them has a column for the decision variable. -/
structure Delivers (model : Model ℚ) (fb : FactBase ℚ) (outer : Query ℚ) (s : Summand ℚ) (next : ℕ)
    (found : List (Tuple ℚ × ℚ)) : Prop where
  /-- The bulk query has the answers. -/
  runs : ∀ ctx, GroundM.Runs (rows fb.knowledgeBase outer (SplitSummand.ofSummand next s).1) ctx
    (outer.symbols ++ s.bound, found) ctx
  /-- The decision variable is declared. -/
  declared : ∀ a, s.decision? = some a → (model.decisionIndex? a.template).isSome
  /-- Every answer makes the decision variable ground. -/
  ground : ∀ a, s.decision? = some a → ∀ r ∈ found,
    (a.groundAt (Valuation.unbound.extend (outer.symbols ++ s.bound) r.1)).isSome

variable {next : ℕ} {found : List (Tuple ℚ × ℚ)}

/-- The decision variable of an answer has a column. -/
theorem Delivers.exists_column (h : Delivers model fb outer s next found) {a : Atom ℚ}
    (ha : s.decision? = some a) {r : Tuple ℚ × ℚ} (hr : r ∈ found) (hmodel : ctx.model = model) :
    ∃ key ctx', GroundM.Runs
      (GroundM.column a (.ofAnswer (outer.symbols ++ s.bound) r.1)) ctx key ctx' := by
  obtain ⟨g, hg⟩ := Option.isSome_iff_exists.mp (h.ground a ha r hr)
  rw [← Binding.get?_ofAnswer] at hg
  exact GroundM.exists_runs_column (by rw [hmodel]; exact h.declared a ha) hg

/-! ### Additions to blocks -/

namespace Block

variable {σ α : Type}

/-- **Additions to blocks**: in every context of a model a computation succeeds, and its block stands for
quantities that have grown. -/
def Adds (model : Model ℚ) (ts : List (Tuple ℚ)) (block : σ → Block ℚ) (f : σ → GroundM ℚ Id σ)
    (H : Tuple ℚ → Quantity) : Prop :=
  ∀ ⦃ctx a G⦄, ctx.Valid → ctx.model = model → (block a).Stands ctx ts G →
    ∃ a' ctx', GroundM.Runs (f a) ctx a' ctx' ∧ ctx.Widens ctx' ∧ (block a').Stands ctx' ts (G + H)

/-- A loop adds what its steps add. -/
theorem adds_foldlM {block : σ → Block ℚ} {f : σ → α → GroundM ℚ Id σ} {xs : List α}
    {Hs : List (Tuple ℚ → Quantity)}
    (h : List.Forall₂ (fun x H => Adds model ts block (f · x) H) xs Hs) :
    Adds model ts block (xs.foldlM f ·) Hs.sum := by
  induction h with
  | nil =>
    intro ctx a G _ _ ha
    rw [List.sum_nil, add_zero]
    exact ⟨a, ctx, GroundM.runs_foldlM_nil.mpr ⟨rfl, rfl⟩, .refl ctx, ha⟩
  | @cons x H xs Hs hx _ ih =>
    intro ctx a G hv hmodel ha
    obtain ⟨a₁, ctx₁, hrun, hwidens, hstands⟩ := hx hv hmodel ha
    obtain ⟨a₂, ctx₂, hrun', hwidens', hstands'⟩ :=
      ih (hwidens.valid hv) (hwidens.model_eq.trans hmodel) hstands
    rw [List.sum_cons, ← add_assoc]
    exact ⟨a₂, ctx₂, GroundM.runs_foldlM_cons.mpr ⟨a₁, ctx₁, hrun, hrun'⟩, hwidens.trans hwidens',
      hstands'⟩

end Block

/-- **An answer is added to the row of its key.** -/
theorem Delivers.adds_addAnswer (h : Delivers model fb outer s next found) {r : Tuple ℚ × ℚ}
    (hr : r ∈ found) (hkey : r.1.take outer.symbols.length ∈ ts) :
    Block.Adds model ts id (addAnswer outer.symbols.length (SplitSummand.ofSummand next s).1
        (outer.symbols ++ s.bound) · r)
      (Pi.single (r.1.take outer.symbols.length) (answerQuantity fb outer s r)) := by
  intro ctx b G hv hmodel hb
  have hdecision : (SplitSummand.ofSummand next s).1.decision = s.decision? := rfl
  obtain ⟨b', ctx', hrun⟩ : ∃ b' ctx', GroundM.Runs (addAnswer outer.symbols.length
      (SplitSummand.ofSummand next s).1 (outer.symbols ++ s.bound) b r) ctx b' ctx' := by
    unfold addAnswer
    rw [hdecision]
    cases hd : s.decision? with
    | none => exact ⟨_, ctx, GroundM.runs_pure.mpr ⟨rfl, rfl⟩⟩
    | some a =>
      obtain ⟨key, ctx', hcolumn⟩ := h.exists_column hd hr hmodel
      exact ⟨_, ctx', GroundM.runs_bind.mpr ⟨key, ctx', hcolumn, GroundM.runs_pure.mpr ⟨rfl, rfl⟩⟩⟩
  obtain ⟨hwidens, hstands⟩ := runs_addAnswer fb hdecision hv hb hkey hrun
  exact ⟨b', ctx', hrun, hwidens, hstands⟩

/-- The quantity that rows amount to for each key. -/
def keyedQuantity (fb : FactBase ℚ) (outer : Query ℚ) (s : Summand ℚ) (found : List (Tuple ℚ × ℚ)) :
    Tuple ℚ → Quantity := fun t x =>
  ((found.filter (·.1.take outer.symbols.length = t)).map (answerQuantity fb outer s · x)).sum

/-- All answers are added to the rows of their keys. -/
theorem Delivers.adds_addAnswers (h : Delivers model fb outer s next found)
    (hkeys : ∀ r ∈ found, r.1.take outer.symbols.length ∈ ts) :
    Block.Adds model ts id (fun b => found.foldlM (addAnswer outer.symbols.length
      (SplitSummand.ofSummand next s).1 (outer.symbols ++ s.bound)) b)
      (keyedQuantity fb outer s found) := by
  have hsum : keyedQuantity fb outer s found = (found.map fun r =>
      Pi.single (M := fun _ => Quantity) (r.1.take outer.symbols.length)
        (answerQuantity fb outer s r)).sum := by
    funext t x
    rw [sum_single_apply]
    rfl
  rw [hsum]
  refine Block.adds_foldlM ?_
  rw [List.forall₂_map_right_iff, List.forall₂_same]
  exact fun r hr => h.adds_addAnswer hr (hkeys r hr)

/-- **A summand of a constraint gives quantities** to some keys: those of the rows that it delivers once its
bound symbols are renamed apart. -/
def SummandGives (model : Model ℚ) (fb : FactBase ℚ) (outer : Query ℚ) (ts : List (Tuple ℚ))
    (s : Summand ℚ) (H : Tuple ℚ → Quantity) : Prop :=
  ∀ next, ∃ found,
    Delivers model fb outer (s.renameApart (outer.symbols ++ outer.formula.vars)) next found
    ∧ (∀ r ∈ found, r.1.take outer.symbols.length ∈ ts)
    ∧ H = keyedQuantity fb outer (s.renameApart (outer.symbols ++ outer.formula.vars)) found

/-- **A summand adds the quantities that it gives.** -/
theorem SummandGives.adds {H : Tuple ℚ → Quantity} (h : SummandGives model fb outer ts s H) :
    Block.Adds model ts Prod.snd (addSummand fb.knowledgeBase outer · s) H := by
  intro ctx state G hv hmodel hb
  obtain ⟨found, hfound, hkeys, rfl⟩ := h state.1
  obtain ⟨b, ctx', hloop, hwidens, hstands⟩ :=
    hfound.adds_addAnswers hkeys (a := state.2) hv hmodel hb
  exact ⟨_, ctx', GroundM.runs_bind.mpr ⟨_, ctx, hfound.runs ctx,
    GroundM.runs_bind.mpr ⟨b, ctx', hloop, GroundM.runs_pure.mpr ⟨rfl, rfl⟩⟩⟩, hwidens, hstands⟩

/-! ### Constraints -/

/-- **A constraint gives quantities**, one for each of some keys: what its summands give to the key adds up.
One that does not vary satisfies the relation up to the tolerance. -/
def ConstraintGives (model : Model ℚ) (fb : FactBase ℚ) (c : Constraint ℚ) (Fs : List Quantity) :
    Prop :=
  ∃ ts ss Hs, c.relation.canonical.summands = .ok ss ∧ ts.Nodup
    ∧ List.Forall₂ (SummandGives model fb c.outer ts) ss Hs ∧ Fs = ts.map Hs.sum
    ∧ ∀ F ∈ Fs, ¬ F.Varies → c.relation.Tolerates (F 0)

/-- The rows of a block are finished without fail when they vary or hold. -/
theorem exists_pushRows {c : Constraint ℚ} {rows : List (GroundRow ℚ)} (hctx : ctx.Consistent)
    (hknown : ∀ r ∈ rows, r.entries.Known ctx)
    (hholds : ∀ r ∈ rows, ¬ (r.quantity ctx).Varies → r.holds c.relation.kind = true) :
    ∃ ctx', GroundM.Runs (rows.forM fun row => do let _ ← GroundM.pushRow c row) ctx () ctx' := by
  induction rows generalizing ctx with
  | nil => exact ⟨ctx, GroundM.runs_forM_nil.mpr rfl⟩
  | cons r rows ih =>
    rw [List.forall_mem_cons] at hknown hholds
    obtain ⟨kept, ctx₁, hpush, hgains⟩ := GroundM.exists_gains_pushRow hctx hknown.1 hholds.1
    obtain ⟨ctx₂, hrest⟩ := ih hgains.consistent (fun r hr => (hknown.2 r hr).grows hgains.grows)
      fun r hr => by
        rw [GroundRow.quantity_grows (hknown.2 r hr) hgains.grows]
        exact hholds.2 r hr
    exact ⟨ctx₂, GroundM.runs_forM_cons.mpr ⟨ctx₁, GroundM.runs_bind.mpr ⟨kept, ctx₁, hpush,
      GroundM.runs_pure.mpr ⟨rfl, rfl⟩⟩, hrest⟩⟩

/-- **A constraint gains the quantities that it gives**, up to their order. -/
theorem ConstraintGives.exists_runs {c : Constraint ℚ} {Fs : List Quantity}
    (h : ConstraintGives model fb c Fs) (next : ℕ) (hctx : ctx.Consistent) (hmodel : ctx.model = model) :
    ∃ next' ctx' Fs', GroundM.Runs (groundConstraint fb.knowledgeBase next c) ctx next' ctx'
      ∧ SameRows Fs' Fs ∧ ctx.Gains ctx' (.all (Fs'.map (Gained.ofRow c.relation.isEquality))) := by
  obtain ⟨ts, ss, Hs, hss, hts, hHs, rfl, hholds⟩ := h
  obtain ⟨⟨last, block⟩, ctx₁, hloop, hwidens, hstands⟩ := Block.adds_foldlM
    (hHs.imp fun s H hH => hH.adds) (a := (next, Block.empty)) hctx.valid hmodel
    (Block.stands_empty ctx ts)
  rw [zero_add] at hstands
  have hctx₁ := (hwidens.gains hctx).consistent
  have hrows := (List.forall₂_and_left _ _).mpr ⟨hstands.within, hstands.rows⟩
  have hknown : ∀ r ∈ block.rows, r.entries.Known ctx₁ :=
    forall_mem_of_forall₂ hrows fun _ _ _ hr => hr.2.1
  obtain ⟨ctx₂, hpush⟩ := exists_pushRows (c := c) hctx₁ hknown <|
    forall_mem_of_forall₂ hrows fun t _ r hr hconstant => by
      have hzero : r.constant = Hs.sum t 0 := by
        rw [← hr.2.2, GroundRow.quantity, GroundRow.valueAt_zero]
      rw [hr.2.2] at hconstant
      exact Instances.holds_of_tolerates
        (hzero ▸ hholds _ (List.mem_map_of_mem hr.1) hconstant)
  -- only keys with answers have rows; the others have the quantity zero, which does not vary
  refine ⟨last, ctx₂, block.keys.items.map Hs.sum, ?_, hstands.perm_filter hts,
    .of_widens hwidens hctx (gains_pushRows hctx₁ hstands hpush)⟩
  exact GroundM.runs_bind.mpr ⟨ss, ctx, GroundM.runs_expression.mpr ⟨hss, rfl⟩,
    GroundM.runs_bind.mpr ⟨(last, block), ctx₁, hloop,
      GroundM.runs_bind.mpr ⟨(), ctx₂, hpush, GroundM.runs_pure.mpr ⟨rfl, rfl⟩⟩⟩⟩

/-! ### The objective and the model -/

/-- What the rows that a summand delivers amount to. -/
def AmountsTo (model : Model ℚ) (fb : FactBase ℚ) (s : Summand ℚ) (F : Quantity) : Prop :=
  ∀ next, ∃ found, Delivers model fb .always s next found
    ∧ F = fun x => (found.map (answerQuantity fb .always s · x)).sum

/-- **An objective gives a quantity**: what its summands amount to, added up; zero without an objective. -/
def ObjectiveGives (model : Model ℚ) (fb : FactBase ℚ) : Option (Expr ℚ) → Quantity → Prop
  | none, F => F = fun _ => 0
  | some e, F => ∃ ss Fs, e.summands = .ok ss ∧ List.Forall₂ (AmountsTo model fb) ss Fs
    ∧ F = fun x => (Fs.map (· x)).sum

/-- The columns of delivered rows are added to the objective without fail. -/
theorem Delivers.exists_addAnswers (h : Delivers model fb .always s next found) {a : Atom ℚ}
    (ha : s.decision? = some a) {rs : List (Tuple ℚ × ℚ)} (hrs : ∀ r ∈ rs, r ∈ found)
    (hctx : ctx.Consistent) (hmodel : ctx.model = model) :
    ∃ ctx', GroundM.Runs (rs.forM fun (answer, v) => do
      GroundM.addObjective (← GroundM.column a (.ofAnswer s.bound answer)) v) ctx () ctx' := by
  induction rs generalizing ctx with
  | nil => exact ⟨ctx, GroundM.runs_forM_nil.mpr rfl⟩
  | cons r rs ih =>
    rw [List.forall_mem_cons] at hrs
    obtain ⟨key, ctx₁, hcolumn⟩ := h.exists_column ha hrs.1 hmodel
    obtain ⟨hwidens, g, -, hat⟩ := GroundingContext.runs_column hctx.valid hcolumn
    have hgains := GroundingContext.gains_addObjective (hwidens.gains hctx).consistent hat r.2
    obtain ⟨ctx₂, hrest⟩ := ih hrs.2 hgains.consistent
      (hgains.grows.model_eq.trans (hwidens.model_eq.trans hmodel))
    exact ⟨ctx₂, GroundM.runs_forM_cons.mpr ⟨_, GroundM.runs_bind.mpr ⟨key, ctx₁, hcolumn,
      GroundM.runs_addObjective.mpr rfl⟩, hrest⟩⟩

/-- **A summand of the objective achieves what varies** in what it amounts to. -/
theorem AmountsTo.achieves {F : Quantity} (h : AmountsTo model fb s F) (next : ℕ) :
    GroundM.Achieves model (addObjectiveSummand fb.knowledgeBase next s)
      (.ofObjective fun x => F x - F 0) := by
  obtain ⟨found, hfound, rfl⟩ := h next
  intro ctx hctx hmodel
  have hrows := hfound.runs ctx
  cases hd : s.decision? with
  | none =>
    refine ⟨(SplitSummand.ofSummand next s).2, ctx,
      GroundM.runs_bind.mpr ⟨_, ctx, hrows, ?_⟩, ?_⟩
    · dsimp only
      rw [hd]
      exact GroundM.runs_pure.mpr ⟨rfl, rfl⟩
    · -- a row without decision variable does not vary
      have hconstant : ∀ r x, answerQuantity fb .always s r x = answerQuantity fb .always s r 0 := by
        intro r x
        simp only [answerQuantity, Summand.decisionDenote, hd, Option.map_none, Option.getD_none]
      simp only [hconstant, sub_self]
      exact .refl hctx
  | some a =>
    obtain ⟨ctx', hloop⟩ := hfound.exists_addAnswers hd (fun _ => id) hctx hmodel
    refine ⟨(SplitSummand.ofSummand next s).2, ctx',
      GroundM.runs_bind.mpr ⟨_, ctx, hrows, ?_⟩, ?_⟩
    · dsimp only
      rw [hd]
      exact GroundM.runs_bind.mpr ⟨(), ctx', hloop, GroundM.runs_pure.mpr ⟨rfl, rfl⟩⟩
    · have hzero : (found.map (answerQuantity fb .always s · 0)).sum = 0 := by
        refine List.sum_eq_zero (List.forall_mem_map.mpr fun r _ => ?_)
        rw [answerQuantity, FactBase.values_zero_decisionDenote hd, mul_zero]
      simp only [hzero, sub_zero]
      exact gains_addAnswers hd hctx hloop

/-- **The objective achieves what varies** in the quantity that it gives. -/
theorem achieves_groundObjective {e : Expr ℚ} {F : Quantity} (h : ObjectiveGives model fb (some e) F) :
    GroundM.Achieves model (groundObjective fb.knowledgeBase 0 e)
      (.ofObjective fun x => F x - F 0) := by
  obtain ⟨ss, Fs, hss, hFs, rfl⟩ := h
  intro ctx hctx hmodel
  have hsummands : List.Forall₂ (fun s g => ∀ next, GroundM.Achieves model
      (addObjectiveSummand fb.knowledgeBase next s) g) ss
      (Fs.map fun F => Gained.ofObjective fun x => F x - F 0) := by
    rw [List.forall₂_map_right_iff]
    exact hFs.imp fun s F hF => hF.achieves
  obtain ⟨next, ctx', hloop, hgains⟩ := GroundM.achieves_foldlM hsummands 0 hctx hmodel
  rw [Gained.all_ofObjective] at hgains
  have hdifference : ∀ x, (Fs.map (· x)).sum - (Fs.map (· 0)).sum
      = (Fs.map fun F => F x - F 0).sum := by
    intro x
    rw [sub_eq_iff_eq_add, ← List.sum_map_add]
    simp only [sub_add_cancel]
  simp only [hdifference]
  exact ⟨next, ctx', GroundM.runs_bind.mpr ⟨ss, ctx, GroundM.runs_expression.mpr ⟨hss, rfl⟩, hloop⟩,
    hgains⟩

/-- Some constraints gain the quantities that they give, each up to their order. -/
theorem exists_runs_constraints {cs : List (Constraint ℚ)} {Fss : List (List Quantity)}
    (h : List.Forall₂ (ConstraintGives model fb) cs Fss) (next : ℕ) (hctx : ctx.Consistent)
    (hmodel : ctx.model = model) : ∃ next' ctx' Fss',
      GroundM.Runs (cs.foldlM (groundConstraint fb.knowledgeBase) next) ctx next' ctx'
        ∧ List.Forall₂ SameRows Fss' Fss
        ∧ ctx.Gains ctx' (.all (List.zipWith (fun c Fs =>
          .all (Fs.map (Gained.ofRow c.relation.isEquality))) cs Fss')) := by
  induction h generalizing ctx next with
  | nil => exact ⟨next, ctx, [], GroundM.runs_foldlM_nil.mpr ⟨rfl, rfl⟩, .nil, .refl hctx⟩
  | cons hc _ ih =>
    obtain ⟨next₁, ctx₁, Fs', hrun, hsame, hgains⟩ := hc.exists_runs next hctx hmodel
    obtain ⟨next₂, ctx₂, Fss', hrun', hsame', hgains'⟩ :=
      ih next₁ hgains.consistent (hgains.grows.model_eq.trans hmodel)
    exact ⟨next₂, ctx₂, Fs' :: Fss', GroundM.runs_foldlM_cons.mpr ⟨next₁, ctx₁, hrun, hrun'⟩,
      .cons hsame hsame', hgains.trans hgains'⟩

/-- **Grounding by blocks succeeds** where the objective and all constraints give quantities, and collects
these, the rows of each constraint in some order. -/
theorem exists_ground_of_gives {F : Quantity} {Fss : List (List Quantity)}
    (hF : ObjectiveGives model fb model.objective F)
    (hFss : List.Forall₂ (ConstraintGives model fb) model.constraints Fss) :
    ∃ ctx Fss', ground fb.knowledgeBase model = .ok (GroundingContext.finish ctx)
      ∧ ctx.Collects model F Fss' ∧ List.Forall₂ SameRows Fss' Fss := by
  have hstart := GroundingContext.consistent_start model
  -- the objective comes first, and the loop over the constraints goes on from where it ends
  obtain ⟨next, ctx₁, hgains, hground⟩ : ∃ next ctx₁,
      (GroundingContext.start model).Gains ctx₁ (.ofObjective fun x => F x - F 0)
      ∧ ∀ {last ctx}, GroundM.Runs (model.constraints.foldlM (groundConstraint fb.knowledgeBase) next)
        ctx₁ last ctx → ground fb.knowledgeBase model = .ok ctx.finish := by
    have hassemble : ∀ {ctx} {x : GroundM ℚ Id Unit},
        GroundM.Runs x (GroundingContext.start model) () ctx →
          GroundM.assemble model x = .ok ctx.finish := fun hrun =>
      exceptT_bind_eq_ok_iff.mpr ⟨((), _), hrun, rfl⟩
    cases he : model.objective with
    | none =>
      rw [he] at hF
      obtain rfl : F = fun _ => 0 := hF
      simp only [sub_self]
      refine ⟨0, _, .refl hstart, fun hloop => hassemble ?_⟩
      rw [he]
      exact GroundM.runs_bind.mpr ⟨0, _, GroundM.runs_pure.mpr ⟨rfl, rfl⟩,
        GroundM.runs_bind.mpr ⟨_, _, hloop, GroundM.runs_pure.mpr ⟨rfl, rfl⟩⟩⟩
    | some e =>
      rw [he] at hF
      obtain ⟨next, ctx₁, hobjective, hgains⟩ := achieves_groundObjective hF hstart rfl
      refine ⟨next, ctx₁, hgains, fun hloop => hassemble ?_⟩
      rw [he]
      exact GroundM.runs_bind.mpr ⟨next, ctx₁, hobjective,
        GroundM.runs_bind.mpr ⟨_, _, hloop, GroundM.runs_pure.mpr ⟨rfl, rfl⟩⟩⟩
  obtain ⟨last, ctx₂, Fss', hloop, hsame, hgains'⟩ :=
    exists_runs_constraints hFss next hgains.consistent hgains.grows.model_eq
  exact ⟨ctx₂, Fss', hground hloop, GroundingContext.collects_of_gains hgains hgains', hsame⟩

end Blocks

end RelationalLP
