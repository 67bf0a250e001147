import Mathlib
import RelationalLP.Proofs.Expr.Linearity
import RelationalLP.Proofs.Number.UnitProducts

/-! # Stability of normal forms

A linear summand is written as an expression whose expansion is that summand: its coefficient and its
factors are multiplied one after another without queries, so that nothing is renamed, and the query is put
around them last. Hence a normal form is read back as the summands it was written from. -/

namespace RelationalLP

variable {K : Type} [Scalar K]

open Scalar (KeptByOne)

namespace Summand

/-! ### Products without queries -/

/-- Without a query there is nothing to rename. -/
theorem renameBound_of_query_eq_none {s : Summand K} (h : s.query = none)
    (clashes taken : List Symbol) : s.renameBound clashes taken = s := by
  rw [renameBound, h]

/-- A product of two summands without queries keeps their factors as they are. -/
theorem product_of_query_eq_none {c d : K} {fs gs : List (Factor K)}
    (h : ((fs ++ gs).filter (·.decision?.isSome)).length ≤ 1) :
    product ⟨none, c, fs⟩ ⟨none, d, gs⟩ = .ok ⟨none, c * d, fs ++ gs⟩ := by
  rw [product, renameBound_of_query_eq_none rfl, renameBound_of_query_eq_none rfl, merge,
    if_neg (not_lt.mpr h)]
  rfl

end Summand

namespace Expr

open Summand

/-- The product of one summand with another. -/
theorem products_singleton {s t u : Summand K} (h : s.product t = .ok u) :
    products [s] [t] = .ok [u] :=
  mapM_eq_ok_iff.mpr (.cons h .nil)

theorem expand_factor {f : Factor K} (hf : f.IsNumeric) :
    f.toExpr.expand = .ok [⟨none, 1, [f]⟩] := by
  cases f with
  | symbol s => rfl
  | atom a =>
    have hkind : a.template.isBoolean = false := hf
    rw [Factor.toExpr, expand, hkind]
    rfl

variable [KeptByOne K]

/-- Multiplying factors to a summand without a query puts them behind the others. -/
theorem expandFactors_map_toExpr {c : K} {fs gs : List (Factor K)} (hnumeric : ∀ g ∈ gs, g.IsNumeric)
    (hdecisions : ((fs ++ gs).filter (·.decision?.isSome)).length ≤ 1) :
    expandFactors [⟨none, c, fs⟩] (gs.map Factor.toExpr) = .ok [⟨none, c, fs ++ gs⟩] := by
  induction gs generalizing fs with
  | nil => rw [List.append_nil]; rfl
  | cons g gs ih =>
    obtain ⟨hg, hgs⟩ := List.forall_mem_cons.mp hnumeric
    have hassoc : fs ++ g :: gs = fs ++ [g] ++ gs := (List.append_cons fs g gs)
    rw [hassoc] at hdecisions ⊢
    have hfirst : ((fs ++ [g]).filter (·.decision?.isSome)).length ≤ 1 := by
      rw [List.filter_append, List.length_append] at hdecisions
      omega
    have hprod : products [⟨none, c, fs⟩] [⟨none, 1, [g]⟩] = .ok [⟨none, c, fs ++ [g]⟩] := by
      rw [products_singleton (product_of_query_eq_none hfirst), KeptByOne.mul_one]
    rw [List.map_cons, expandFactors, expand_factor hg]
    exact bind_eq_ok_iff.mpr ⟨_, rfl, bind_eq_ok_iff.mpr ⟨_, hprod, ih hgs hdecisions⟩⟩

/-- A coefficient before the factors of a product. -/
theorem expand_mul_constant {c : K} {fs : List (Factor K)} (hnumeric : ∀ f ∈ fs, f.IsNumeric)
    (hdecisions : (fs.filter (·.decision?.isSome)).length ≤ 1) :
    (mul (constant c :: fs.map Factor.toExpr)).expand = .ok [⟨none, c, fs⟩] := by
  have hprod : products [Summand.unit] [⟨none, c, []⟩] = .ok [⟨none, c, []⟩] := by
    have hempty : ((([] ++ [] : List (Factor K))).filter (·.decision?.isSome)).length ≤ 1 :=
      Nat.zero_le 1
    rw [Summand.unit, products_singleton (product_of_query_eq_none hempty), KeptByOne.one_mul]
    rfl
  rw [expand, expandFactors, expand]
  exact bind_eq_ok_iff.mpr ⟨_, rfl, bind_eq_ok_iff.mpr
    ⟨_, hprod, expandFactors_map_toExpr hnumeric hdecisions⟩⟩

/-! ### Reading summands back -/

/-- The product term of a linear summand expands to the summand without its query. -/
theorem expand_termExpr {s : Summand K} (hs : s.Linear) :
    s.termExpr.expand = .ok [⟨none, s.coefficient, s.factors⟩] := by
  obtain ⟨q, c, fs⟩ := s
  obtain ⟨hnumeric, hdecisions⟩ := hs
  cases fs with
  | nil => rfl
  | cons f fs =>
    rw [termExpr]
    cases hone : Scalar.numEq c 1 with
    | false => exact expand_mul_constant hnumeric hdecisions
    | true =>
      -- the coefficient is left out, and one is read in its place
      obtain rfl := KeptByOne.eq_one_of_numEq hone
      cases fs with
      | nil => exact expand_factor (hnumeric f List.mem_cons_self)
      | cons g fs =>
        exact @expandFactors_map_toExpr K _ _ 1 [] _ hnumeric hdecisions

/-- **A linear summand is read back** from the expression that it is written as. -/
theorem expand_toExpr {s : Summand K} (hs : s.Linear) : s.toExpr.expand = .ok [s] := by
  obtain ⟨query, c, fs⟩ := s
  cases query with
  | none => exact expand_termExpr hs
  | some q =>
    have hnest : (ofQuery q).nest ⟨none, c, fs⟩ = .ok ⟨some q, c, fs⟩ := by
      have hdecisions : ((([] ++ fs : List (Factor K))).filter (·.decision?.isSome)).length ≤ 1 :=
        hs.decisions
      rw [nest, renameBound_of_query_eq_none rfl, ofQuery, Summand.unit, merge,
        if_neg (not_lt.mpr hdecisions), KeptByOne.one_mul]
      rfl
    rw [toExpr, expand]
    exact bind_eq_ok_iff.mpr ⟨_, expand_termExpr hs, mapM_eq_ok_iff.mpr (.cons hnest .nil)⟩

theorem expandTerms_map_toExpr {ss : List (Summand K)} (h : ∀ s ∈ ss, s.Linear) :
    expandTerms (ss.map Summand.toExpr) = .ok ss := by
  induction ss with
  | nil => rfl
  | cons s ss ih =>
    obtain ⟨hs, hss⟩ := List.forall_mem_cons.mp h
    rw [List.map_cons, expandTerms, expand_toExpr hs, ih hss]
    rfl

/-- Linear summands other than zero are read back from their sum. -/
theorem summands_ofSummands {ss : List (Summand K)} (hlinear : ∀ s ∈ ss, s.Linear)
    (hnonzero : ∀ s ∈ ss, Scalar.isZero s.coefficient = false) :
    (ofSummands ss).summands = .ok ss := by
  have hkeep : ss.filter (fun s => !Scalar.isZero s.coefficient) = ss :=
    List.filter_eq_self.mpr fun s hs => by rw [hnonzero s hs]; rfl
  match ss, hlinear, hkeep with
  | [], _, _ =>
    have hzero : [({ Summand.unit with coefficient := 0 } : Summand K)].filter
        (fun s => !Scalar.isZero s.coefficient) = [] := by
      rw [List.filter_singleton, KeptByOne.isZero_zero]
      rfl
    rw [ofSummands, summands, expand]
    exact congrArg Except.ok hzero
  | [s], hlinear, hkeep =>
    rw [ofSummands, summands, expand_toExpr (hlinear s List.mem_cons_self)]
    exact congrArg Except.ok hkeep
  | s :: t :: ss, hlinear, hkeep =>
    have hread : (add ((s :: t :: ss).map Summand.toExpr)).expand = .ok (s :: t :: ss) :=
      expandTerms_map_toExpr hlinear
    show (add ((s :: t :: ss).map Summand.toExpr)).summands = _
    rw [summands, hread]
    exact congrArg Except.ok hkeep

/-- **Normal forms are stable**: the normal form of an expression has the summands of the expression, and
is its own normal form; its summands are not zero, and each has one decision variable at most. -/
theorem normalize_of_summands {e : Expr K} {ss : List (Summand K)} (h : e.summands = .ok ss) :
    ∃ n, e.normalize = .ok n ∧ n.summands = .ok ss ∧ n.normalize = .ok n
      ∧ ∀ s ∈ ss, Scalar.isZero s.coefficient = false
        ∧ (s.factors.filter (·.decision?.isSome)).length ≤ 1 := by
  have hlinear := linear_of_summands h
  have hnonzero : ∀ s ∈ ss, Scalar.isZero s.coefficient = false := by
    obtain ⟨all, -, rfl⟩ := summands_eq_ok h
    exact fun s hs => Bool.not_eq_true' _ ▸ (List.mem_filter.mp hs).2
  have hread := summands_ofSummands hlinear hnonzero
  refine ⟨ofSummands ss, ?_, hread, ?_, fun s hs => ⟨hnonzero s hs, (hlinear s hs).decisions⟩⟩
  · rw [normalize, h]
    rfl
  · rw [normalize, hread]
    rfl

/-- `2 * sum({X | r(X)}, x(X) + 0 + 3 * X)` over doubles, where `x` is a decision variable. -/
def doubledSum : Expr Double :=
  mul [constant 2.0, sum (.ofSymbols [⟨"X"⟩] (.atom ⟨⟨"r", 1, .boolean, false⟩, [.var ⟨"X"⟩]⟩))
    (add [atom ⟨⟨"x", 1, .numeric, true⟩, [.var ⟨"X"⟩]⟩, constant 0,
      mul [constant 3.0, symbol ⟨"X"⟩]])]

/-- The sum is split, one part disappears, and the other two are read back. -/
theorem normalize_doubledSum : ∃ ss n, doubledSum.summands = .ok ss ∧ ss.length = 2
    ∧ doubledSum.normalize = .ok n ∧ n.summands = .ok ss ∧ n.normalize = .ok n := by
  have hlength : doubledSum.summands.toOption.map List.length = some 2 := by decide +kernel
  obtain ⟨ss, hss, hcount⟩ := exists_eq_ok_of_map_toOption hlength
  obtain ⟨n, hn, hread, hstable, -⟩ := normalize_of_summands hss
  exact ⟨ss, n, hss, hcount, hn, hread, hstable⟩

end Expr

end RelationalLP
