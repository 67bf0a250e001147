import RelationalLP.Logic.Simplify

/-! # Queries

A query asks for the tuples that bind its symbols and satisfy its formula. Its symbols do not
repeat. -/

namespace RelationalLP

/-- Symbols to bind and the formula that the bindings satisfy. -/
structure Query (K : Type) where
  /-- The bound symbols in order. -/
  symbols : List Symbol
  /-- The condition. -/
  formula : Formula K
  /-- No symbol is bound twice. -/
  nodup : symbols.Nodup

namespace Query

variable {K : Type}

/-- The query of some symbols; of a repeated symbol the first occurrence counts. -/
def ofSymbols (symbols : List Symbol) (formula : Formula K) : Query K :=
  ⟨distinct symbols, formula, nodup_distinct symbols⟩

/-- The query without symbols that always has its one answer. -/
def always : Query K := ofSymbols [] .truth

instance : Inhabited (Query K) := ⟨always⟩

/-- The symbols of both queries and the simplified conjunction of their formulas. -/
def conjoin [Scalar K] (q r : Query K) : Query K :=
  ofSymbols (q.symbols ++ r.symbols) (Formula.conj [q.formula, r.formula]).simplify

/-- Replaces bound parameters: variables of the formula that the query does not bind itself. -/
def substitute (b : Binding K) (q : Query K) : Query K :=
  { q with formula := q.formula.substitute (b.without q.symbols) }

/-- Renames the bound symbols and the variables of the formula alike. -/
def rename (r : Renaming) (q : Query K) : Query K :=
  ofSymbols (q.symbols.map r.apply) (q.formula.rename r)

/-- Whether the query binds nothing and its formula simplifies to truth. -/
def isTrivial [Scalar K] (q : Query K) : Bool :=
  q.symbols.isEmpty && q.formula.simplify = .truth

/-- The written form: symbols and formula in braces. -/
def render [Scalar K] (q : Query K) : String :=
  "\x7b" ++ Symbol.renderAll q.symbols ++ " | " ++ q.formula.render ++ "\x7d"

end Query

end RelationalLP
