import Mathlib
import RelationalLP.Expr.Evaluate
import RelationalLP.Number.Double
import RelationalLP.Proofs.Collections.Traversal
import RelationalLP.Proofs.Number.Exact
import RelationalLP.Proofs.Number.NearestDoubles

/-! # Exact arithmetic of expressions

The parts of an expression, the expressions that are arithmetic on finite numbers and symbols, and their values
when sums and products are not rounded. -/

namespace RelationalLP

/-! ### Parts of expressions -/

namespace Expr

variable {K : Type}

/-- **A part of an expression**, at any depth. -/
inductive PartOf (part : Expr K) : Expr K → Prop where
  /-- The expression itself. -/
  | self : PartOf part part
  /-- A part of a term. -/
  | add {e : Expr K} {es : List (Expr K)} (he : e ∈ es) (h : PartOf part e) : PartOf part (.add es)
  /-- A part of a factor. -/
  | mul {e : Expr K} {es : List (Expr K)} (he : e ∈ es) (h : PartOf part e) : PartOf part (.mul es)
  /-- A part of the body of a sum over answers. -/
  | sum {q : Query K} {body : Expr K} (h : PartOf part body) : PartOf part (.sum q body)

@[simp] theorem partOf_constant {part : Expr K} {v : K} : part.PartOf (.constant v) ↔ part = .constant v :=
  ⟨fun h => by cases h; rfl, fun h => h ▸ .self⟩

@[simp] theorem partOf_symbol {part : Expr K} {s : Symbol} : part.PartOf (.symbol s) ↔ part = .symbol s :=
  ⟨fun h => by cases h; rfl, fun h => h ▸ .self⟩

@[simp] theorem partOf_add {part : Expr K} {es : List (Expr K)} :
    part.PartOf (.add es) ↔ part = .add es ∨ ∃ e ∈ es, part.PartOf e := by
  constructor
  · intro h
    cases h with
    | self => exact .inl rfl
    | add he h => exact .inr ⟨_, he, h⟩
  · rintro (rfl | ⟨e, he, h⟩)
    · exact .self
    · exact .add he h

@[simp] theorem partOf_mul {part : Expr K} {es : List (Expr K)} :
    part.PartOf (.mul es) ↔ part = .mul es ∨ ∃ e ∈ es, part.PartOf e := by
  constructor
  · intro h
    cases h with
    | self => exact .inl rfl
    | mul he h => exact .inr ⟨_, he, h⟩
  · rintro (rfl | ⟨e, he, h⟩)
    · exact .self
    · exact .mul he h

/-- **Expressions of finite numbers and symbols** with sums and products that are not empty. -/
inductive Arithmetic : Expr Double → Prop where
  /-- A finite number. -/
  | constant {v : Double} (h : v.isFinite = true) : Arithmetic (.constant v)
  /-- A symbol. -/
  | symbol (s : Symbol) : Arithmetic (.symbol s)
  /-- A sum with a term. -/
  | add {es : List (Expr Double)} (hne : es ≠ []) (h : ∀ e ∈ es, Arithmetic e) : Arithmetic (.add es)
  /-- A product with a factor. -/
  | mul {es : List (Expr Double)} (hne : es ≠ []) (h : ∀ e ∈ es, Arithmetic e) : Arithmetic (.mul es)

/-- Parts of arithmetic are arithmetic. -/
theorem Arithmetic.of_partOf {part e : Expr Double} (he : Arithmetic e) (hpart : part.PartOf e) :
    Arithmetic part := by
  induction hpart with
  | self => exact he
  | add hmem _ ih =>
    cases he with
    | add _ hes => exact ih (hes _ hmem)
  | mul hmem _ ih =>
    cases he with
    | mul _ hes => exact ih (hes _ hmem)
  | sum _ _ => cases he

mutual

/-- The expression with the exact values of its numbers, unless it has atoms or sums over answers. -/
def unrounded? : Expr Double → Option (Expr ℚ)
  | constant v => some (constant v.exact)
  | symbol s => some (symbol s)
  | add es => (unroundedAll? es).map add
  | mul es => (unroundedAll? es).map mul
  | atom _ => none
  | sum _ _ => none

/-- The expressions of a list with the exact values of their numbers. -/
def unroundedAll? : List (Expr Double) → Option (List (Expr ℚ))
  | [] => some []
  | e :: es =>
    match e.unrounded?, unroundedAll? es with
    | some x, some xs => some (x :: xs)
    | _, _ => none

end

theorem unroundedAll?_eq_some_iff {es : List (Expr Double)} {xs : List (Expr ℚ)} :
    unroundedAll? es = some xs ↔ List.Forall₂ (fun e x => e.unrounded? = some x) es xs := by
  induction es generalizing xs with
  | nil =>
    rw [unroundedAll?, List.forall₂_nil_left_iff, Option.some.injEq, eq_comm]
  | cons e es ih =>
    rw [unroundedAll?, List.forall₂_cons_left_iff]
    constructor
    · intro h
      split at h
      · rename_i x ys hx hys
        exact ⟨x, ys, hx, ih.mp hys, (Option.some.inj h).symm⟩
      · cases h
    · rintro ⟨x, ys, hx, hys, rfl⟩
      rw [hx, ih.mpr hys]

theorem Arithmetic.exists_unrounded {e : Expr Double} (he : Arithmetic e) : ∃ x, e.unrounded? = some x := by
  have hlist : ∀ {es : List (Expr Double)}, (∀ e ∈ es, ∃ x, e.unrounded? = some x) →
      ∃ xs, unroundedAll? es = some xs := fun hes => by
    obtain ⟨xs, hxs⟩ := exists_forall₂_of_forall_mem hes
    exact ⟨xs, unroundedAll?_eq_some_iff.mpr hxs⟩
  induction he with
  | constant _ => exact ⟨_, rfl⟩
  | symbol s => exact ⟨_, rfl⟩
  | add _ _ ih =>
    obtain ⟨xs, hxs⟩ := hlist ih
    exact ⟨_, by rw [unrounded?, hxs]; rfl⟩
  | mul _ _ ih =>
    obtain ⟨xs, hxs⟩ := hlist ih
    exact ⟨_, by rw [unrounded?, hxs]; rfl⟩

/-- An expression has a value under a binding, whatever atoms and queries are. -/
def HasValue (b : Binding ℚ) (x : Expr ℚ) (v : ℚ) : Prop :=
  ∀ {m : Type → Type} [Monad m] [LawfulMonad m] (i : Interpretation ℚ m), x.evaluate i b = pure v

section Loops

variable {m : Type → Type} [Monad m] [LawfulMonad m] {b : Binding ℚ} {xs : List (Expr ℚ)} {vs : List ℚ}

theorem evaluateSum_eq_pure (h : List.Forall₂ (HasValue b) xs vs) (i : Interpretation ℚ m) (total : ℚ) :
    evaluateSum i b total xs = pure (total + vs.sum) := by
  induction h generalizing total with
  | nil => rw [evaluateSum, List.sum_nil, add_zero]
  | cons hx _ ih => rw [evaluateSum, hx i, pure_bind, ih, List.sum_cons, add_assoc]

theorem evaluateProduct_eq_pure (h : List.Forall₂ (HasValue b) xs vs) (i : Interpretation ℚ m)
    (total : ℚ) : evaluateProduct i b total xs = pure (total * vs.prod) := by
  induction h generalizing total with
  | nil => rw [evaluateProduct, List.prod_nil, mul_one]
  | cons hx _ ih => rw [evaluateProduct, hx i, pure_bind, ih, List.prod_cons, mul_assoc]

end Loops

theorem HasValue.add {b : Binding ℚ} {xs : List (Expr ℚ)} {vs : List ℚ}
    (h : List.Forall₂ (HasValue b) xs vs) : HasValue b (.add xs) vs.sum := by
  intro m _ _ i
  rw [evaluate, evaluateSum_eq_pure h, zero_add]

theorem HasValue.mul {b : Binding ℚ} {xs : List (Expr ℚ)} {vs : List ℚ}
    (h : List.Forall₂ (HasValue b) xs vs) : HasValue b (.mul xs) vs.prod := by
  intro m _ _ i
  rw [evaluate, evaluateProduct_eq_pure h, one_mul]

end Expr

end RelationalLP
