import RelationalLP.Grounding.Error
import RelationalLP.Solving.Error

/-! # Errors of problems

What can go wrong while a problem is declared or solved. -/

namespace RelationalLP

/-- Why a problem is not declared or not solved. -/
inductive ProblemError where
  /-- A second objective. -/
  | objectiveAlreadySet
  /-- A declared predicate that is no decision predicate. -/
  | notDecision (template : String)
  /-- A decision predicate that is declared already. -/
  | duplicateDecision (template : String)
  /-- An error of an expression or of a formula. -/
  | model (cause : ExprError)
  /-- An error of the knowledge base. -/
  | kb (cause : KbError)
  /-- An error of grounding. -/
  | ground (cause : GroundError)
  /-- An error of the solver. -/
  | solver (cause : SolverError)
  deriving DecidableEq

namespace ProblemError

/-- The wording of an error. -/
def message : ProblemError → String
  | objectiveAlreadySet => "Problem error: the objective is already set"
  | notDecision template => "Problem error: '" ++ template ++ "' is not a decision predicate"
  | duplicateDecision template =>
    "Problem error: decision predicate '" ++ template ++ "' is already declared"
  | model cause => cause.message
  | kb cause => cause.message
  | ground cause => cause.message
  | solver cause => cause.message

/-- Whether grounding found a product of decision variables. -/
def isNonLinear : ProblemError → Bool
  | ground cause => cause.isNonLinear
  | _ => false

end ProblemError

end RelationalLP
