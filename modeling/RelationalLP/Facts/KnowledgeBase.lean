import RelationalLP.Expr.Evaluate

/-! # Knowledge bases

What the grounders ask of a knowledge base: the answers of a formula, and the value of one ground
numeric atom. A knowledge base may keep a state in the monad `m`; a plain one uses `Id`. -/

namespace RelationalLP

/-- Why a knowledge base refuses to answer. -/
inductive KbError where
  /-- More than one fact gives a value to an atom. -/
  | inconsistent (atom : String) (count : Nat)
  /-- A lookup of an atom with variables. -/
  | notGround (atom : String)
  /-- A fact whose value is a text. -/
  | nonNumeric (atom : String)
  /-- A literal whose variables no positive atom binds. -/
  | notSafe (literal : String)
  /-- A selector that the query does not bind. -/
  | unboundSelector (symbol : String)
  /-- A failure behind the knowledge base, with the reason. -/
  | backend (reason : String)
  /-- An error of a formula or of a coefficient. -/
  | expression (cause : ExprError)
  deriving DecidableEq

namespace KbError

/-- The wording of an error. -/
def message : KbError → String
  | inconsistent atom count =>
    "KB error: " ++ toString count ++ " facts match '" ++ atom ++ "', expected at most one"
  | notGround atom => "KB error: fact lookup needs a ground atom, got '" ++ atom ++ "'"
  | nonNumeric atom => "KB error: fact '" ++ atom ++ "' has a non-numeric value"
  | notSafe literal =>
    "KB error: variables of '" ++ literal ++ "' are not bound by a positive atom"
  | unboundSelector symbol => "KB error: selector '" ++ symbol ++ "' does not occur in the query"
  | backend reason => "KB error: backend failure: " ++ reason
  | expression cause => cause.message

/-- A failed lookup inside an expression. -/
def toExprError (e : KbError) : ExprError := .resolution e.message

end KbError

/-- Changes the error of a computation. -/
def withError {ε ε' α : Type} {m : Type → Type} [Monad m] (f : ε → ε') (x : ExceptT ε m α) :
    ExceptT ε' m α := ExceptT.adapt f x

/-- The two requests to a knowledge base. -/
structure KnowledgeBase (K : Type) (m : Type → Type) where
  /-- The distinct tuples that bind the selectors and satisfy the formula. With a coefficient each
  tuple ends with the value of the coefficient, as a real. -/
  ask : List Symbol → Formula K → Option (Expr K) → ExceptT KbError m (Answers K)
  /-- The value of a ground numeric atom, if it has one. -/
  askFact : Atom K → ExceptT KbError m (Option K)

namespace KnowledgeBase

variable {K : Type} {m : Type → Type} [Scalar K] [Monad m]

/-- Evaluates expressions by asking a knowledge base. -/
def interpretation (kb : KnowledgeBase K m) : Interpretation K m where
  value a := do
    match ← withError KbError.toExprError (kb.askFact a) with
    | some v => pure v
    | none => throw (.undefined a.render)
  answers symbols f := withError KbError.toExprError (kb.ask symbols f none)

/-- The value of a coefficient as an answer cell. -/
def coefficientCell (i : Interpretation K m) (e : Expr K) (b : Binding K) :
    ExceptT KbError m (Constant K) := do
  return .real (← withError KbError.expression (e.evaluate i b))

end KnowledgeBase

end RelationalLP
