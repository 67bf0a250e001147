/-! # Errors of formulas and expressions

What can go wrong while a template, an atom, a formula or an expression is built, read, normalized
or evaluated. -/

namespace RelationalLP

/-- The cause of a failure; offending terms are given by their text. -/
inductive ExprError where
  /-- An atom with the wrong number of arguments. -/
  | arityMismatch (name : String) (expected found : Nat)
  /-- A boolean predicate without arguments. -/
  | emptyBoolean (name : String)
  /-- A decision predicate without arguments. -/
  | emptyDecision (name : String)
  /-- A product of decision atoms. -/
  | nonLinear (product : String)
  /-- A symbol that no query binds. -/
  | unboundSymbol (symbol : String)
  /-- A symbol bound to a text where a number is needed. -/
  | nonNumeric (symbol : String)
  /-- An atom without a value. -/
  | undefined (atom : String)
  /-- A boolean predicate in the place of a number. -/
  | booleanInExpression (name : String)
  /-- A lookup that failed, with the reason. -/
  | resolution (reason : String)
  /-- A text outside the grammar of formulas. -/
  | malformed
  /-- One item of a list of facts is no atom. -/
  | notFact (formula : String)
  /-- A formula that is no list of facts. -/
  | notFacts (formula : String)
  deriving DecidableEq, Inhabited

namespace ExprError

/-- The wording of an error. -/
def message : ExprError → String
  | arityMismatch name expected found =>
    "IR error: predicate '" ++ name ++ "' expects " ++ toString expected ++ " argument(s), got "
      ++ toString found
  | emptyBoolean name =>
    "IR error: invalid predicate template '" ++ name
      ++ "': boolean predicates need at least one argument"
  | emptyDecision name =>
    "IR error: invalid predicate template '" ++ name
      ++ "': decision variables need at least one argument"
  | nonLinear product => "IR error: non-linear term: " ++ product
  | unboundSymbol symbol => "IR error: unbound symbol '" ++ symbol ++ "'"
  | nonNumeric symbol => "IR error: symbol '" ++ symbol ++ "' is bound to a non-numeric value"
  | undefined atom => "IR error: undefined value for '" ++ atom ++ "'"
  | booleanInExpression name =>
    "IR error: boolean predicate '" ++ name ++ "' used in a numeric expression"
  | resolution reason => "IR error: could not resolve '" ++ reason ++ "'"
  | malformed => "Parser error: malformed formula"
  | notFact formula => "Parser error: '" ++ formula ++ "' is not a fact"
  | notFacts formula => "Parser error: '" ++ formula ++ "' is not a list of facts"

end ExprError

end RelationalLP
