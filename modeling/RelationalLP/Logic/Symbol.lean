/-! # Symbols

The logical variables of formulas and expressions. -/

namespace RelationalLP

/-- A logical variable; two are the same when their names agree. -/
structure Symbol where
  /-- The name of the variable. -/
  name : String
  deriving DecidableEq, Ord, Inhabited

/-- A change of symbols: pairs of an old and a new symbol, the first pair for a symbol counts. -/
abbrev Renaming := List (Symbol × Symbol)

/-- The new name of a symbol, which is the symbol itself where nothing else is said. -/
def Renaming.apply (r : Renaming) (s : Symbol) : Symbol := (r.lookup s).getD s

/-- Symbols separated by commas. -/
def Symbol.renderAll (symbols : List Symbol) : String :=
  ", ".intercalate (symbols.map Symbol.name)

end RelationalLP
