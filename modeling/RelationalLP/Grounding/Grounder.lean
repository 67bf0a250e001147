import RelationalLP.Grounding.Context

/-! # Grounding as a computation

Grounding changes a context, asks a knowledge base, and may fail. -/

namespace RelationalLP

/-- Computations that ground a model with a knowledge base in the monad `m`. -/
abbrev GroundM (K : Type) (m : Type → Type) [Scalar K] := StateT (GroundingContext K) (ExceptT GroundError m)

namespace GroundM

variable {K : Type} {m : Type → Type} [Scalar K] [Monad m]

/-- A request to the knowledge base. -/
def request {α : Type} (x : ExceptT KbError m α) : GroundM K m α :=
  StateT.lift (withError GroundError.kb x)

/-- A computation on expressions of the model. -/
def expression {α : Type} (x : Except ExprError α) : GroundM K m α :=
  match x with
  | .ok v => pure v
  | .error e => throw (.ofExpression e)

/-- A computation that changes the context. -/
def update {α : Type} (f : GroundingContext K → Except GroundError (α × GroundingContext K)) :
    GroundM K m α := do
  match f (← get) with
  | .ok (v, ctx) => set ctx; pure v
  | .error e => throw e

/-- The key of a decision atom under a binding. -/
def column (a : Atom K) (b : Binding K) : GroundM K m Position :=
  update fun ctx => ctx.column (a.substitute b)

/-- Adds to the objective. -/
def addObjective (key : Position) (v : K) : GroundM K m Unit :=
  modify fun ctx => ctx.addObjective key v

/-- Adds a finished row of a constraint. -/
def pushRow (c : Constraint K) (row : GroundRow K) : GroundM K m Bool :=
  update fun ctx => ctx.pushRow c.relation.kind row c.render

/-- Runs a computation from the empty context and assembles the program. -/
def assemble (model : Model K) (x : GroundM K m Unit) : ExceptT GroundError m (Grounded K) := do
  let (_, ctx) ← x.run (.start model)
  return ctx.finish

end GroundM

end RelationalLP
