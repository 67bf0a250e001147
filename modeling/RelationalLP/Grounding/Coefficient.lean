import RelationalLP.Expr.Normalize

/-! # Coefficients for bulk queries

Splits a summand into its decision atom and a coefficient that a knowledge base can evaluate: every
other numeric atom `p(args)` becomes a fresh value symbol `V`, and the query gets the atom
`p(args, V)`. -/

namespace RelationalLP

/-- A summand that is ready for one bulk query. -/
structure SplitSummand (K : Type) where
  /-- The decision atom. -/
  decision : Option (Atom K)
  /-- The query with an atom for each value symbol. -/
  query : Query K
  /-- The query without them. -/
  base : Query K
  /-- The product of the constant, the symbols and the value symbols. -/
  coefficient : Expr K
  /-- The number of value symbols. -/
  valueAtoms : Nat

namespace SplitSummand

variable {K : Type}

/-- The value symbol with a number. -/
def valueSymbol (n : Nat) : Symbol := ⟨"__v" ++ toString n⟩

/-- The factors of the coefficient and the atoms that give the value symbols their values; value symbols
are numbered from `next` on. -/
def splitFactors (next : Nat) : List (Factor K) → List (Expr K) × List (Formula K) × Nat
  | [] => ([], [], next)
  | .symbol s :: rest =>
    let (factors, atoms, next) := splitFactors next rest
    (.symbol s :: factors, atoms, next)
  | .atom a :: rest =>
    let v := valueSymbol next
    let (factors, atoms, next) := splitFactors (next + 1) rest
    (.symbol v :: factors, .atom (a.withExtra a.template.valueRelation (.var v)) :: atoms, next)

/-- Splits a summand; gives the number of the next value symbol, too. -/
def ofSummand [Scalar K] (next : Nat) (s : Summand K) : SplitSummand K × Nat :=
  let base := s.query.getD .always
  let (factors, atoms, next) := splitFactors next s.plainFactors
  let query := if atoms.isEmpty then base else base.conjoin (.ofSymbols [] (.conj atoms))
  let coefficient : Expr K :=
    if factors.isEmpty then .constant s.coefficient else .mul (.constant s.coefficient :: factors)
  ({ decision := s.decision?, query, base, coefficient, valueAtoms := atoms.length }, next)

end SplitSummand

end RelationalLP
