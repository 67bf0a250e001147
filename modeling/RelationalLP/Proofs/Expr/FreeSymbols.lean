import Mathlib
import RelationalLP.Expr.Normalize
import RelationalLP.Number.Double
import RelationalLP.Proofs.Collections.Traversal
import RelationalLP.Proofs.Expr.MergedSymbols

/-! # Free symbols

A symbol is free in an expression where it occurs outside the sums that bind it, also when it occurs in a
formula only. A summand has the free symbols of the expression that it is written as, and merging captures no
symbol and brings none in, so the free symbols of a normal form are free in the expression. -/

namespace RelationalLP

variable {K : Type}

/-- **A symbol is free in an expression**: it occurs outside the sums that bind it, variables of formulas
included. -/
inductive Symbol.FreeIn (x : Symbol) : Expr K → Prop where
  /-- The symbol itself. -/
  | symbol : FreeIn x (.symbol x)
  /-- An argument of an atom. -/
  | atom {a : Atom K} (h : x ∈ a.vars) : FreeIn x (.atom a)
  /-- A symbol of a term. -/
  | add {e : Expr K} {es : List (Expr K)} (he : e ∈ es) (h : FreeIn x e) : FreeIn x (.add es)
  /-- A symbol of a factor. -/
  | mul {e : Expr K} {es : List (Expr K)} (he : e ∈ es) (h : FreeIn x e) : FreeIn x (.mul es)
  /-- A variable of the formula that the query does not bind. -/
  | formula {q : Query K} {body : Expr K} (h : x ∈ q.formula.vars) (hx : x ∉ q.symbols) :
      FreeIn x (.sum q body)
  /-- A symbol of the body that the query does not bind. -/
  | body {q : Query K} {body : Expr K} (h : FreeIn x body) (hx : x ∉ q.symbols) : FreeIn x (.sum q body)

namespace Symbol

variable {x : Symbol}

@[simp] theorem freeIn_constant {v : K} : ¬ x.FreeIn (.constant v) := nofun

@[simp] theorem freeIn_symbol {y : Symbol} : x.FreeIn (.symbol y : Expr K) ↔ x = y := by
  constructor
  · rintro ⟨⟩
    rfl
  · rintro rfl
    exact .symbol

@[simp] theorem freeIn_atom {a : Atom K} : x.FreeIn (.atom a) ↔ x ∈ a.vars :=
  ⟨fun h => by cases h; assumption, .atom⟩

@[simp] theorem freeIn_add {es : List (Expr K)} : x.FreeIn (.add es) ↔ ∃ e ∈ es, x.FreeIn e := by
  constructor
  · rintro ⟨⟩
    exact ⟨_, ‹_›, ‹_›⟩
  · rintro ⟨e, he, h⟩
    exact .add he h

@[simp] theorem freeIn_mul {es : List (Expr K)} : x.FreeIn (.mul es) ↔ ∃ e ∈ es, x.FreeIn e := by
  constructor
  · rintro ⟨⟩
    exact ⟨_, ‹_›, ‹_›⟩
  · rintro ⟨e, he, h⟩
    exact .mul he h

@[simp] theorem freeIn_sum {q : Query K} {body : Expr K} :
    x.FreeIn (.sum q body) ↔ (x ∈ q.formula.vars ∨ x.FreeIn body) ∧ x ∉ q.symbols := by
  constructor
  · intro h
    cases h with
    | formula h hx => exact ⟨.inl h, hx⟩
    | body h hx => exact ⟨.inr h, hx⟩
  · rintro ⟨h | h, hx⟩
    · exact .formula h hx
    · exact .body h hx

end Symbol

/-! ### Summands as expressions -/

theorem Factor.freeIn_toExpr {f : Factor K} {x : Symbol} : x.FreeIn f.toExpr ↔ x ∈ f.vars := by
  cases f <;> simp [Factor.toExpr, Factor.vars]

namespace Summand

variable {s : Summand K} {x : Symbol}

/-- Without a query every symbol of a factor is free. -/
theorem mem_freeVars_of_query_eq_none (h : s.query = none) :
    x ∈ s.freeVars ↔ ∃ f ∈ s.factors, x ∈ f.vars := by
  have hbound : s.bound = [] := by rw [bound, h]; rfl
  simp [mem_freeVars, mem_vars, hbound, h]

/-- Under a query the symbols of the formula and of the factors are free that the query does not bind. -/
theorem mem_freeVars_of_query_eq_some {q : Query K} (h : s.query = some q) :
    x ∈ s.freeVars ↔ (x ∈ q.formula.vars ∨ ∃ f ∈ s.factors, x ∈ f.vars) ∧ x ∉ q.symbols := by
  have hbound : s.bound = q.symbols := by rw [bound, h]; rfl
  rw [mem_freeVars, mem_vars, hbound, h, Formula.mem_vars]
  simp only [Option.some.injEq, exists_eq_left']
  tauto

variable [Scalar K]

/-- The product term has the symbols of the factors. -/
theorem freeIn_termExpr : x.FreeIn s.termExpr ↔ ∃ f ∈ s.factors, x ∈ f.vars := by
  have hparts : (∃ e ∈ if s.factors.isEmpty || !Scalar.numEq s.coefficient 1 then
      .constant s.coefficient :: s.factors.map Factor.toExpr else s.factors.map Factor.toExpr,
        x.FreeIn e) ↔ ∃ f ∈ s.factors, x ∈ f.vars := by
    split <;> simp [Factor.freeIn_toExpr]
  rw [termExpr, ← hparts]
  -- a single part stands for itself
  split
  · rename_i e heq
    rw [heq, List.exists_mem_cons_iff]
    simp
  · exact Symbol.freeIn_mul

/-- **A summand has the free symbols of the expression that it is written as.** -/
theorem freeIn_toExpr : x.FreeIn s.toExpr ↔ x ∈ s.freeVars := by
  rw [toExpr]
  cases hq : s.query with
  | none => rw [freeIn_termExpr, mem_freeVars_of_query_eq_none hq]
  | some q => rw [Symbol.freeIn_sum, freeIn_termExpr, mem_freeVars_of_query_eq_some hq]

end Summand

/-! ### Normal forms -/

namespace Expr

variable [Scalar K] {x : Symbol}

open Summand

mutual

/-- **Expansion brings no free symbols in.** -/
theorem freeIn_of_expand : (e : Expr K) → ∀ {ss}, e.expand = .ok ss → ∀ s ∈ ss, x ∈ s.freeVars → x.FreeIn e
  | constant v, ss, h, s, hs, hx => by
    obtain rfl := Except.ok.inj h
    obtain rfl := List.mem_singleton.mp hs
    exact nomatch hx
  | symbol y, ss, h, s, hs, hx => by
    obtain rfl := Except.ok.inj h
    obtain rfl := List.mem_singleton.mp hs
    simpa [mem_freeVars_of_query_eq_none, Summand.unit, Factor.vars] using hx
  | atom a, ss, h, s, hs, hx => by
    rw [expand] at h
    split at h
    · exact nomatch h
    · obtain rfl := Except.ok.inj h
      obtain rfl := List.mem_singleton.mp hs
      simpa [mem_freeVars_of_query_eq_none, Summand.unit, Factor.vars] using hx
  | add es, ss, h, s, hs, hx => Symbol.freeIn_add.mpr (freeIn_of_expandTerms es h s hs hx)
  | mul es, ss, h, s, hs, hx => by
    -- the product starts from the unit, which has no symbols
    rcases freeIn_of_expandFactors es h s hs hx with ⟨l, hl, hmem⟩ | hmem
    · rw [List.mem_singleton.mp hl] at hmem
      exact nomatch hmem
    · exact Symbol.freeIn_mul.mpr hmem
  | sum q body, ss, h, s, hs, hx => by
    obtain ⟨inner, hbody, h⟩ := bind_eq_ok_iff.mp h
    have hnest : List.Forall₂ (fun s u => (ofQuery q).nest s = .ok u) inner ss :=
      mapM_eq_ok_iff.mp h
    -- what is free in the nested summand is free in the formula or in the summand, and not bound
    obtain ⟨t, ht, hu⟩ := exists_of_forall₂_right hnest hs
    obtain ⟨hb, hfree⟩ := mem_freeVars_of_nest hu hx
    rw [Symbol.freeIn_sum, Formula.mem_vars]
    exact ⟨hfree.imp_right (freeIn_of_expand body hbody t ht), hb⟩

theorem freeIn_of_expandTerms : (es : List (Expr K)) → ∀ {ss}, expandTerms es = .ok ss → ∀ s ∈ ss,
    x ∈ s.freeVars → ∃ e ∈ es, x.FreeIn e
  | [], ss, h, s, hs, _ => by
    obtain rfl := Except.ok.inj h
    exact nomatch hs
  | e :: es, ss, h, s, hs, hx => by
    obtain ⟨first, hfirst, h⟩ := bind_eq_ok_iff.mp h
    obtain ⟨rest, hrest, h⟩ := bind_eq_ok_iff.mp h
    obtain rfl := Except.ok.inj h
    rw [List.exists_mem_cons_iff]
    exact (List.mem_append.mp hs).imp (fun hs => freeIn_of_expand e hfirst s hs hx)
      fun hs => freeIn_of_expandTerms es hrest s hs hx

theorem freeIn_of_expandFactors : (es : List (Expr K)) → ∀ {left ss}, expandFactors left es = .ok ss →
    ∀ s ∈ ss, x ∈ s.freeVars → (∃ l ∈ left, x ∈ l.freeVars) ∨ ∃ e ∈ es, x.FreeIn e
  | [], left, ss, h, s, hs, hx => by
    obtain rfl := Except.ok.inj h
    exact .inl ⟨s, hs, hx⟩
  | e :: es, left, ss, h, s, hs, hx => by
    obtain ⟨right, hright, h⟩ := bind_eq_ok_iff.mp h
    obtain ⟨both, hprod, h⟩ := bind_eq_ok_iff.mp h
    rw [List.exists_mem_cons_iff]
    rcases freeIn_of_expandFactors es h s hs hx with ⟨u, hu, hxu⟩ | hmem
    · obtain ⟨⟨l, r⟩, hp, hpu⟩ := exists_of_forall₂_right (mapM_eq_ok_iff.mp hprod) hu
      obtain ⟨l', hl, hp⟩ := List.mem_flatMap.mp hp
      obtain ⟨r', hr, heq⟩ := List.mem_map.mp hp
      obtain ⟨rfl, rfl⟩ := Prod.mk.inj heq
      rcases mem_freeVars_of_product hpu hxu with hxl | hxr
      · exact .inl ⟨l', hl, hxl⟩
      · exact .inr (.inl (freeIn_of_expand e hright r' hr hxr))
    · exact .inr (.inr hmem)

end

/-- The summands of an expression are those of its expansion that are not zero. -/
theorem summands_eq_ok {e : Expr K} {kept : List (Summand K)} (h : e.summands = .ok kept) :
    ∃ ss, e.expand = .ok ss ∧ kept = ss.filter fun s => !Scalar.isZero s.coefficient := by
  obtain ⟨ss, hss, heq⟩ := map_eq_ok_iff.mp h
  exact ⟨ss, hss, heq.symm⟩

/-- A normal form is the sum of them. -/
theorem normalize_eq_ok {e n : Expr K} (h : e.normalize = .ok n) :
    ∃ ss, e.expand = .ok ss ∧ n = ofSummands (ss.filter fun s => !Scalar.isZero s.coefficient) := by
  obtain ⟨kept, hkept, rfl⟩ := map_eq_ok_iff.mp h
  obtain ⟨ss, hss, rfl⟩ := summands_eq_ok hkept
  exact ⟨ss, hss, rfl⟩

/-- A symbol is free in a sum of summands when it is free in one of them. -/
theorem freeIn_ofSummands {ss : List (Summand K)} :
    x.FreeIn (ofSummands ss) ↔ ∃ s ∈ ss, x ∈ s.freeVars := by
  match ss with
  | [] => simp [ofSummands]
  | [s] => simp [ofSummands, freeIn_toExpr]
  | s :: t :: ss => simp [ofSummands, freeIn_toExpr]

/-- **Normal forms bring no free symbols in.** -/
theorem freeIn_of_normalize {e n : Expr K} (h : e.normalize = .ok n) (hx : x.FreeIn n) : x.FreeIn e := by
  obtain ⟨all, hall, rfl⟩ := normalize_eq_ok h
  obtain ⟨s, hs, hxs⟩ := freeIn_ofSummands.mp hx
  exact freeIn_of_expand e hall s (List.mem_of_mem_filter hs) hxs

/-- **Merging captures no symbol.** A product binds as many symbols as its operands together, all different
and free in no operand, and its free symbols are free in an operand. A summand without a product of decision
variables can be nested under a query: the symbols of the query come first, then those of the summand, each
as it is or as a variant that is new to the summand, all unknown to the query, and the free symbols are free
in the formula or in the summand and no symbols of the query. Renamed apart from an outer scope, a summand has
as many bound symbols, none of them in the scope, and the same free ones. Hence a symbol that is free in the
normal form of an expression is free in the expression. -/
theorem merging_captures_no_symbol :
    (∀ s t u : Summand K, s.product t = .ok u →
      u.bound.length = s.bound.length + t.bound.length ∧ u.bound.Nodup
        ∧ (∀ x ∈ u.bound, x ∉ s.freeVars ∧ x ∉ t.freeVars)
        ∧ ∀ x ∈ u.freeVars, x ∈ s.freeVars ∨ x ∈ t.freeVars)
    ∧ (∀ (q : Query K) (s : Summand K),
      ((∃ u, (ofQuery q).nest s = .ok u) ↔ (s.factors.filter (·.decision?.isSome)).length ≤ 1)
        ∧ ∀ u, (ofQuery q).nest s = .ok u →
          (∃ names, u.bound = q.symbols ++ names
            ∧ List.Forall₂ (fun x y => y = x ∨ y ∉ s.vars ∧ ∃ n, y = variant x (n + 1)) s.bound names
            ∧ ∀ y ∈ names, y ∉ q.symbols ∧ y ∉ q.formula.vars)
          ∧ ∀ x ∈ u.freeVars, (x ∈ q.formula.vars ∨ x ∈ s.freeVars) ∧ x ∉ q.symbols)
    ∧ (∀ (s : Summand K) (outer : List Symbol),
      (∀ x ∈ (s.renameApart outer).bound, x ∉ outer)
        ∧ (∀ x, x ∈ (s.renameApart outer).freeVars ↔ x ∈ s.freeVars)
        ∧ (s.renameApart outer).bound.length = s.bound.length)
    ∧ ∀ (e n : Expr K), e.normalize = .ok n → ∀ x : Symbol, x.FreeIn n → x.FreeIn e := by
  refine ⟨fun s t u h => ?_, fun q s => ⟨exists_nest_iff, fun u h => ⟨⟨_, bound_nest h, ?_, ?_⟩, ?_⟩⟩,
    fun s outer => ?_, fun e n h x hx => freeIn_of_normalize h hx⟩
  · exact ⟨length_bound_product h, nodup_bound u, fun x hx => notMem_freeVars_of_mem_bound_product h hx,
      fun x hx => mem_freeVars_of_product h hx⟩
  · -- a bound symbol keeps its name, or takes a variant that the summand does not use
    refine (forall₂_bound_renameBound _ _ s).imp fun x y hxy => ?_
    rcases hxy with ⟨-, rfl⟩ | ⟨-, hnew, hvariant⟩
    · exact .inl rfl
    · exact .inr ⟨fun hy => hnew (List.mem_append_left _ (List.mem_append_left _ hy)), hvariant⟩
  · intro y hy
    have hapart : y ∉ (ofQuery q).vars := notMem_of_mem_bound_renameBound hy
    rwa [mem_vars_ofQuery, not_or] at hapart
  · intro x hx
    rw [Formula.mem_vars]
    exact (mem_freeVars_of_nest h hx).symm
  · exact ⟨fun x hx => notMem_of_mem_bound_renameBound hx,
      (renamed_renameBound outer outer s).mem_freeVars_iff, length_bound_renameBound outer outer s⟩

/-- The sum of `X` over `road(X, X_1)`, where `X_1` is free. -/
def startSum : Summand Double :=
  ⟨some (.ofSymbols [⟨"X"⟩] (.atom ⟨⟨"road", 2, .boolean, false⟩, [.var ⟨"X"⟩, .var ⟨"X_1"⟩]⟩)), 1.0,
    [.symbol ⟨"X"⟩]⟩

/-- The sum of `2 * X * Y` over `town(X)`, where `Y` is free. -/
def townSum : Summand Double :=
  ⟨some (.ofSymbols [⟨"X"⟩] (.atom ⟨⟨"town", 1, .boolean, false⟩, [.var ⟨"X"⟩]⟩)), 2.0,
    [.symbol ⟨"X"⟩, .symbol ⟨"Y"⟩]⟩

/-- The query for `X_1` and `X` with `road(X_1, X)`. -/
def roadsBetween : Query Double :=
  .ofSymbols [⟨"X_1"⟩, ⟨"X"⟩] (.atom ⟨⟨"road", 2, .boolean, false⟩, [.var ⟨"X_1"⟩, .var ⟨"X"⟩]⟩)

/-- The variant `X_1` is in use: the second factor of a product sums over `X_2`, and so does a sum under a
query for `X_1` and `X`, where its own `X_1` is that of the query. -/
theorem merging_captures_no_symbol_usedVariant :
    (∃ u, startSum.product townSum = .ok u ∧ u.bound = [⟨"X"⟩, ⟨"X_2"⟩]
      ∧ u.bound.length = startSum.bound.length + townSum.bound.length ∧ u.bound.Nodup
      ∧ (∀ x ∈ u.bound, x ∉ startSum.freeVars ∧ x ∉ townSum.freeVars)
      ∧ ∀ x ∈ u.freeVars, x ∈ startSum.freeVars ∨ x ∈ townSum.freeVars)
    ∧ (∃ u, (ofQuery roadsBetween).nest startSum = .ok u ∧ u.bound = [⟨"X_1"⟩, ⟨"X"⟩, ⟨"X_2"⟩]
      ∧ ∀ x ∈ u.freeVars,
        (x ∈ roadsBetween.formula.vars ∨ x ∈ startSum.freeVars) ∧ x ∉ roadsBetween.symbols)
    ∧ ∃ n, (sum roadsBetween startSum.toExpr).normalize = .ok n
      ∧ ∀ x : Symbol, x.FreeIn n → x.FreeIn (sum roadsBetween startSum.toExpr) := by
  obtain ⟨hproduct, hnest, -, hnormal⟩ := merging_captures_no_symbol (K := Double)
  refine ⟨?_, ?_, ?_⟩
  · have hbound : (startSum.product townSum).toOption.map bound = some [⟨"X"⟩, ⟨"X_2"⟩] := by
      decide +kernel
    obtain ⟨u, hu, hsymbols⟩ := exists_eq_ok_of_map_toOption hbound
    exact ⟨u, hu, hsymbols, hproduct _ _ u hu⟩
  · obtain ⟨u, hu⟩ := (hnest roadsBetween startSum).1.mpr (by decide +kernel)
    have hbound : ((ofQuery roadsBetween).nest startSum).toOption.map bound
        = some [⟨"X_1"⟩, ⟨"X"⟩, ⟨"X_2"⟩] := by decide +kernel
    rw [hu] at hbound
    exact ⟨u, hu, Option.some.inj hbound, ((hnest roadsBetween startSum).2 u hu).2⟩
  · have hsome : (sum roadsBetween startSum.toExpr).normalize.toOption.isSome = true := by
      decide +kernel
    obtain ⟨n, hn⟩ := exists_eq_ok_of_isSome_toOption hsome
    exact ⟨n, hn, hnormal _ n hn⟩

end Expr

end RelationalLP
