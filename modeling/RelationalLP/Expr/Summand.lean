import RelationalLP.Expr.Basic

/-! # Summands

The parts of a normalized expression: a coefficient times atoms and symbols, possibly under one sum.
Merging two summands renames bound symbols first, so that no symbol is captured. -/

namespace RelationalLP

/-- A factor of a summand other than its coefficient. -/
inductive Factor (K : Type) where
  /-- A numeric atom. -/
  | atom (a : Atom K)
  /-- A symbol. -/
  | symbol (s : Symbol)
  deriving DecidableEq

namespace Factor

variable {K : Type}

/-- The variables in order, with repetitions. -/
def vars : Factor K → List Symbol
  | atom a => a.vars
  | symbol s => [s]

/-- Renames the variables. -/
def rename (r : Renaming) : Factor K → Factor K
  | atom a => atom (a.rename r)
  | symbol s => symbol (r.apply s)

/-- The factor as an expression. -/
def toExpr : Factor K → Expr K
  | atom a => .atom a
  | symbol s => .symbol s

/-- The atom of a decision variable. -/
def decision? : Factor K → Option (Atom K)
  | atom a => if a.isDecision then some a else none
  | symbol _ => none

/-- The written form. -/
def render [Scalar K] : Factor K → String
  | atom a => a.render
  | symbol s => s.name

end Factor

/-- A coefficient times factors, under the sum over a query if there is one. -/
structure Summand (K : Type) where
  /-- The query that is summed over. -/
  query : Option (Query K)
  /-- The coefficient. -/
  coefficient : K
  /-- The factors in order. -/
  factors : List (Factor K)

namespace Summand

variable {K : Type}

/-- The number one, without query and factors. -/
def unit [Scalar K] : Summand K := ⟨none, 1, []⟩

/-- The decision atom; a normalized summand has at most one. -/
def decision? (s : Summand K) : Option (Atom K) := s.factors.findSome? Factor.decision?

/-- The factors that are no decision variables. -/
def plainFactors (s : Summand K) : List (Factor K) := s.factors.filter (·.decision?.isNone)

/-! ### Symbols -/

/-- The symbols that the query binds. -/
def bound (s : Summand K) : List Symbol := (s.query.map Query.symbols).getD []

/-- Every symbol of the summand, bound ones first. -/
def vars (s : Summand K) : List Symbol :=
  distinct (s.bound ++ (s.query.map (·.formula.vars)).getD [] ++ s.factors.flatMap Factor.vars)

/-- The symbols that the summand does not bind. -/
def freeVars (s : Summand K) : List Symbol := s.vars.filter (· ∉ s.bound)

/-- The `n`-th variant of a symbol. -/
def variant (s : Symbol) (n : Nat) : Symbol := ⟨s.name ++ "_" ++ toString n⟩

/-- The first variant `X_1, X_2, …` of a symbol that is not used. One more variant than used symbols
is enough to find it. -/
def fresh (used : List Symbol) (s : Symbol) : Symbol :=
  (((List.range (used.length + 1)).map fun n => variant s (n + 1)).find? (· ∉ used)).getD s

/-- New names for the given symbols, each apart from the used ones and from the names before it. -/
def freshNames (used : List Symbol) : List Symbol → Renaming
  | [] => []
  | s :: rest => (s, fresh used s) :: freshNames (fresh used s :: used) rest

/-- Renames the bound symbols among `clashes` to names apart from `taken` and from all symbols of the
summand. -/
def renameBound [Scalar K] (clashes taken : List Symbol) (s : Summand K) : Summand K :=
  match s.query with
  | none => s
  | some q =>
    let r := freshNames (s.vars ++ clashes ++ taken) (q.symbols.filter (· ∈ clashes))
    if r.isEmpty then s
    else ⟨some (q.rename r), s.coefficient, s.factors.map (Factor.rename r)⟩

/-- Renames every bound symbol that occurs in an enclosing scope. -/
def renameApart [Scalar K] (outer : List Symbol) (s : Summand K) : Summand K :=
  s.renameBound outer outer

/-! ### Merging -/

/-- The query over which a product of two summands is summed. -/
def mergeQueries [Scalar K] : Option (Query K) → Option (Query K) → Option (Query K)
  | none, none => none
  | some q, none => some q
  | none, some r => some r
  | some q, some r => some (q.conjoin r)

/-- Multiplies two summands whose symbols are already apart; a product of two decision variables is
refused. -/
def merge [Scalar K] (s t : Summand K) : Except ExprError (Summand K) :=
  let factors := s.factors ++ t.factors
  if (factors.filter (·.decision?.isSome)).length > 1 then
    .error (.nonLinear (" * ".intercalate (factors.map Factor.render)))
  else .ok ⟨mergeQueries s.query t.query, s.coefficient * t.coefficient, factors⟩

/-- The product of two summands, neither of which sees the bound symbols of the other. -/
def product [Scalar K] (s t : Summand K) : Except ExprError (Summand K) :=
  -- the right factor gives way first, so the left one has to avoid its new names
  let right := t.renameBound s.vars s.vars
  let left := s.renameBound right.freeVars right.vars
  left.merge right

/-- Puts a summand under the sum of another: its free symbols may be bound there, its own bound
symbols stay its own. -/
def nest [Scalar K] (outer inner : Summand K) : Except ExprError (Summand K) :=
  outer.merge (inner.renameBound outer.vars outer.vars)

/-! ### Expressions -/

/-- The product term without the sum around it. -/
def termExpr [Scalar K] (s : Summand K) : Expr K :=
  let factors := s.factors.map Factor.toExpr
  -- a coefficient of one is written only when it stands alone
  let parts :=
    if s.factors.isEmpty || !Scalar.numEq s.coefficient 1 then .constant s.coefficient :: factors
    else factors
  match parts with
  | [e] => e
  | parts => .mul parts

/-- The summand as an expression. -/
def toExpr [Scalar K] (s : Summand K) : Expr K :=
  match s.query with
  | some q => .sum q s.termExpr
  | none => s.termExpr

end Summand

end RelationalLP
