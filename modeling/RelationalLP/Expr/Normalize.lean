import RelationalLP.Expr.Summand

/-! # Normal form of expressions

Turns an expression into a flat sum of summands: products are distributed over additions and moved
inside sums, sums are split over additions, nested sums and products of sums become one sum over the
conjoined query, and summands with coefficient zero disappear. An expression with a product of two
decision variables has no normal form. -/

namespace RelationalLP

namespace Expr

variable {K : Type} [Scalar K]

/-- The products of each summand of one list with each of another. -/
def products (left right : List (Summand K)) : Except ExprError (List (Summand K)) :=
  (left.flatMap fun l => right.map (l, ·)).mapM fun (l, r) => l.product r

mutual

/-- The summands of an expression, zero ones included. -/
def expand : Expr K → Except ExprError (List (Summand K))
  | constant v => .ok [{ Summand.unit with coefficient := v }]
  | symbol s => .ok [{ Summand.unit with factors := [.symbol s] }]
  | atom a =>
    if a.template.isBoolean then .error (.booleanInExpression a.name)
    else .ok [{ Summand.unit with factors := [.atom a] }]
  | add es => expandTerms es
  | mul es => expandFactors [Summand.unit] es
  | sum q body => do
    let inner ← body.expand
    inner.mapM fun s => ({ Summand.unit with query := some q } : Summand K).nest s

/-- The summands of the terms of a sum, one after another. -/
def expandTerms : List (Expr K) → Except ExprError (List (Summand K))
  | [] => .ok []
  | e :: es => do
    let first ← e.expand
    let rest ← expandTerms es
    return first ++ rest

/-- The summands of a product of a list of summands with the factors of a product. -/
def expandFactors (left : List (Summand K)) : List (Expr K) → Except ExprError (List (Summand K))
  | [] => .ok left
  | e :: es => do
    let right ← e.expand
    expandFactors (← products left right) es

end

/-- The summands of an expression with nonzero coefficient, in order. -/
def summands (e : Expr K) : Except ExprError (List (Summand K)) :=
  e.expand.map (·.filter fun s => !Scalar.isZero s.coefficient)

/-- The sum of some summands; no summand is zero, and one stands alone. -/
def ofSummands : List (Summand K) → Expr K
  | [] => constant 0
  | [s] => s.toExpr
  | ss => add (ss.map Summand.toExpr)

/-- The normal form of an expression. -/
def normalize (e : Expr K) : Except ExprError (Expr K) := e.summands.map ofSummands

end Expr

end RelationalLP
