import Mathlib
import RelationalLP.Grounding.Grounder
import RelationalLP.Proofs.Collections.Traversal

/-! # Successful runs of grounding

A grounding computation that succeeds leads from one context to another. What a run of each step says
is stated once; longer computations are taken apart with these. -/

namespace RelationalLP

/-- Another error changes nothing for a computation that succeeds. -/
theorem withError_eq_ok_iff {ε ε' α : Type} {f : ε → ε'} {x : ExceptT ε Id α} {a : α} :
    (withError f x : ExceptT ε' Id α) = .ok a ↔ x = .ok a := by
  cases x using Except.casesOn with
  | error e => exact iff_of_false nofun nofun
  | ok b =>
    show (Except.ok b : Except ε' α) = .ok a ↔ (Except.ok b : Except ε α) = .ok a
    rw [Except.ok.injEq, Except.ok.injEq]

namespace GroundM

variable {K : Type} [Scalar K] {α β : Type} {ctx ctx' : GroundingContext K}

/-- **A successful run**: a computation leads from a context to a result and another context. -/
def Runs (x : GroundM K Id α) (ctx : GroundingContext K) (a : α) (ctx' : GroundingContext K) : Prop :=
  x.run ctx = .ok (a, ctx')

theorem runs_pure {a b : α} : Runs (pure a) ctx b ctx' ↔ b = a ∧ ctx' = ctx := by
  constructor
  · intro h
    have heq : (a, ctx) = (b, ctx') := Except.ok.inj h
    rw [Prod.mk.injEq] at heq
    exact ⟨heq.1.symm, heq.2.symm⟩
  · rintro ⟨rfl, rfl⟩
    rfl

theorem runs_bind {x : GroundM K Id α} {f : α → GroundM K Id β} {b : β} :
    Runs (x >>= f) ctx b ctx' ↔ ∃ a ctx₁, Runs x ctx a ctx₁ ∧ Runs (f a) ctx₁ b ctx' := by
  rw [Runs, StateT.run_bind, exceptT_bind_eq_ok_iff]
  constructor
  · rintro ⟨p, hx, hf⟩
    exact ⟨p.1, p.2, hx, hf⟩
  · rintro ⟨a, ctx₁, hx, hf⟩
    exact ⟨(a, ctx₁), hx, hf⟩

theorem not_runs_throw {e : GroundError} {a : α} :
    ¬ Runs (throw e : GroundM K Id α) ctx a ctx' := by
  intro h
  cases h

/-- A request leaves the context alone. -/
theorem runs_request {x : ExceptT KbError Id α} {a : α} :
    Runs (request x : GroundM K Id α) ctx a ctx' ↔ x = .ok a ∧ ctx' = ctx := by
  have hrequest : Runs (request x : GroundM K Id α) ctx a ctx'
      ↔ (withError GroundError.kb x >>= fun b => pure (b, ctx) : ExceptT GroundError Id _)
        = .ok (a, ctx') := Iff.rfl
  rw [hrequest, exceptT_bind_eq_ok_iff]
  constructor
  · rintro ⟨b, hb, heq⟩
    obtain ⟨rfl, rfl⟩ := Prod.mk.inj (Except.ok.inj heq)
    exact ⟨withError_eq_ok_iff.mp hb, rfl⟩
  · rintro ⟨hb, rfl⟩
    exact ⟨a, withError_eq_ok_iff.mpr hb, rfl⟩

/-- A computation on expressions leaves the context alone. -/
theorem runs_expression {x : Except ExprError α} {a : α} :
    Runs (expression x : GroundM K Id α) ctx a ctx' ↔ x = .ok a ∧ ctx' = ctx := by
  cases x with
  | error e =>
    refine iff_of_false not_runs_throw ?_
    rintro ⟨h, -⟩
    cases h
  | ok b =>
    rw [Except.ok.injEq, eq_comm]
    exact runs_pure

theorem runs_liftExcept {x : Except GroundError α} {a : α} :
    Runs (liftExcept x : GroundM K Id α) ctx a ctx' ↔ x = .ok a ∧ ctx' = ctx := by
  cases x with
  | error e =>
    refine iff_of_false not_runs_throw ?_
    rintro ⟨h, -⟩
    cases h
  | ok b =>
    rw [Except.ok.injEq, eq_comm]
    exact runs_pure

/-- An update of the context succeeds when its function does. -/
theorem runs_update {f : GroundingContext K → Except GroundError (α × GroundingContext K)} {a : α} :
    Runs (update f : GroundM K Id α) ctx a ctx' ↔ f ctx = .ok (a, ctx') := by
  have hrun : (update f : GroundM K Id α).run ctx = f ctx := by
    unfold update
    rw [StateT.run_bind, StateT.run_get, pure_bind]
    cases f ctx with
    | error e => rfl
    | ok p => rfl
  rw [Runs, hrun]

theorem runs_addObjective {key : Position} {v : K} {u : Unit} :
    Runs (addObjective key v : GroundM K Id Unit) ctx u ctx' ↔ ctx' = ctx.addObjective key v := by
  constructor
  · intro h
    have hpair : ((), ctx.addObjective key v) = (u, ctx') := Except.ok.inj h
    exact (Prod.mk.inj hpair).2.symm
  · rintro rfl
    rfl

/-! ### Loops -/

theorem runs_foldlM_nil {f : β → α → GroundM K Id β} {b c : β} :
    Runs ([].foldlM f b) ctx c ctx' ↔ c = b ∧ ctx' = ctx := runs_pure

theorem runs_foldlM_cons {f : β → α → GroundM K Id β} {b c : β} {x : α} {xs : List α} :
    Runs ((x :: xs).foldlM f b) ctx c ctx'
      ↔ ∃ b₁ ctx₁, Runs (f b x) ctx b₁ ctx₁ ∧ Runs (xs.foldlM f b₁) ctx₁ c ctx' := by
  rw [List.foldlM_cons, runs_bind]

theorem runs_forM_nil {f : α → GroundM K Id Unit} {u : Unit} :
    Runs ([].forM f) ctx u ctx' ↔ ctx' = ctx := by
  rw [List.forM_eq_forM, List.forM_nil, runs_pure]
  exact and_iff_right (Subsingleton.elim _ _)

theorem runs_forM_cons {f : α → GroundM K Id Unit} {u : Unit} {x : α} {xs : List α} :
    Runs ((x :: xs).forM f) ctx u ctx'
      ↔ ∃ ctx₁, Runs (f x) ctx () ctx₁ ∧ Runs (xs.forM f) ctx₁ () ctx' := by
  rw [List.forM_eq_forM, List.forM_cons, runs_bind]
  constructor
  · rintro ⟨u₁, ctx₁, hx, hxs⟩
    exact ⟨ctx₁, hx, hxs⟩
  · rintro ⟨ctx₁, hx, hxs⟩
    exact ⟨(), ctx₁, hx, hxs⟩

/-- A loop without a state is one whose state says nothing. -/
theorem runs_forM_iff_foldlM {f : α → GroundM K Id Unit} {xs : List α} :
    Runs (xs.forM f) ctx () ctx' ↔ Runs (xs.foldlM (fun _ x => f x) ()) ctx () ctx' := by
  induction xs generalizing ctx with
  | nil => exact runs_forM_nil.trans (runs_foldlM_nil.trans (and_iff_right rfl)).symm
  | cons x xs ih =>
    rw [runs_forM_cons, runs_foldlM_cons]
    constructor
    · rintro ⟨ctx₁, hx, hxs⟩
      exact ⟨(), ctx₁, hx, ih.mp hxs⟩
    · rintro ⟨u, ctx₁, hx, hxs⟩
      exact ⟨ctx₁, hx, ih.mpr hxs⟩

end GroundM

end RelationalLP
