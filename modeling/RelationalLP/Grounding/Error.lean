import RelationalLP.Facts.KnowledgeBase

/-! # Errors of grounding

An error discards everything grounded so far. -/

namespace RelationalLP

/-- Why a model is not grounded. -/
inductive GroundError where
  /-- A coefficient, a symbol or a fact without exactly one value. -/
  | resolution (what : String)
  /-- A fact without a value. -/
  | undefinedFact (atom : String)
  /-- A decision atom of a predicate that was not declared. -/
  | undeclaredDecision (template : String)
  /-- A row without decision variables that does not hold. -/
  | infeasible (constraint : String)
  /-- An expression that no model may contain. -/
  | structural (cause : ExprError)
  /-- Any other error of an expression. -/
  | expression (cause : ExprError)
  /-- An error of the knowledge base. -/
  | kb (cause : KbError)
  deriving DecidableEq

namespace GroundError

/-- The wording of an error. -/
def message : GroundError → String
  | resolution what => "Grounding error: cannot resolve " ++ what
  | undefinedFact atom => "Grounding error: fact '" ++ atom ++ "' is undefined"
  | undeclaredDecision template =>
    "Grounding error: '" ++ template ++ "' is not a declared decision variable"
  | infeasible constraint => "Grounding error: constraint '" ++ constraint ++ "' is infeasible"
  | structural cause => "Grounding error: malformed model: " ++ cause.message
  | expression cause => cause.message
  | kb cause => cause.message

/-- An error of an expression of the model; wrong arities and misplaced relations are faults of the
model itself. -/
def ofExpression : ExprError → GroundError
  | .arityMismatch name expected found => structural (.arityMismatch name expected found)
  | .booleanInExpression name => structural (.booleanInExpression name)
  | cause => expression cause

/-- Whether a product of decision variables was found. -/
def isNonLinear : GroundError → Bool
  | expression (.nonLinear _) => true
  | _ => false

end GroundError

end RelationalLP
