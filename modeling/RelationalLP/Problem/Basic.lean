import RelationalLP.Grounding.Context
import RelationalLP.Problem.Error
import RelationalLP.Problem.Solution
import RelationalLP.Solving.Solver

/-! # Problems

A named relational linear program that is declared step by step, grounded and solved. Any way to ground
and any way to solve can be used. -/

namespace RelationalLP

/-- A way to ground models. -/
abbrev Grounder (K : Type) [Scalar K] := Model K → Except GroundError (Grounded K)

/-- What an optimal run leaves. -/
structure Solved (K : Type) [Scalar K] where
  /-- The grounded model. -/
  grounded : Grounded K
  /-- The optimal point. -/
  x : List K
  /-- Its objective in the direction of the problem. -/
  objective : K

/-- A problem with its declarations and the result of its last run. -/
structure Problem (K : Type) [Scalar K] where
  /-- The name. -/
  name : String
  /-- The declarations. -/
  model : Model K
  /-- How the model is grounded. -/
  grounder : Grounder K
  /-- How the program is solved. -/
  solver : Solver K
  /-- What the last run left, if it was optimal. -/
  solved : Option (Solved K) := none
  /-- The status of the last run. -/
  status : SolveStatus := .unsolved

namespace Problem

variable {K : Type} [Scalar K]

/-- The problem without declarations. -/
def declare (name : String) (sense : Sense) (grounder : Grounder K) (solver : Solver K) :
    Problem K := { name, model := { sense }, grounder, solver }

/-- Declares the objective; a problem has at most one. -/
def declareObjective (p : Problem K) (e : Expr K) : Except ProblemError Unit × Problem K :=
  match p.model.objective with
  | some _ => (.error .objectiveAlreadySet, p)
  | none => (.ok (), { p with model := { p.model with objective := some e } })

/-- Adds a constraint. -/
def addConstraint (p : Problem K) (c : Constraint K) : Problem K :=
  { p with model := { p.model with constraints := p.model.constraints ++ [c] } }

/-- Declares a decision predicate; its columns follow those declared before it. -/
def declareDecision (p : Problem K) (t : PredicateTemplate) : Except ProblemError Unit × Problem K :=
  if !t.decision then (.error (.notDecision t.render), p)
  else if (p.model.decisionIndex? t).isSome then (.error (.duplicateDecision t.render), p)
  else (.ok (), { p with model := { p.model with decision := p.model.decision ++ [t] } })

/-- The problem that an accepted declaration leaves; a refusal is passed on. -/
def accepted (answer : Except ProblemError Unit × Problem K) : Except ProblemError (Problem K) :=
  answer.1.map fun _ => answer.2

/-- Sets the objective, or gives up. -/
def setObjective (p : Problem K) (e : Expr K) : Except ProblemError (Problem K) :=
  accepted (p.declareObjective e)

/-- Adds a decision predicate, or gives up. -/
def addDecision (p : Problem K) (t : PredicateTemplate) : Except ProblemError (Problem K) :=
  accepted (p.declareDecision t)

/-- Grounds the model without solving it. -/
def ground (p : Problem K) : Except ProblemError (Grounded K) :=
  (p.grounder p.model).mapError .ground

/-- The problem without the result of an earlier run. -/
def reset (p : Problem K) : Problem K := { p with solved := none, status := .unsolved }

/-- Grounds and solves the model. An infeasible or unbounded program is a status, not an error; an error
leaves no result. -/
def solve (p : Problem K) : Except ProblemError SolveStatus × Problem K :=
  match p.ground with
  | .error e => (.error e, p.reset)
  | .ok grounded =>
    match p.solver grounded.program with
    | .error e => (.error (.solver e), p.reset)
    | .ok (.optimal x objective) =>
      let objective := p.model.sense.factor * objective
      (.ok .optimal, { p with solved := some ⟨grounded, x, objective⟩, status := .optimal })
    | .ok outcome => (.ok outcome.status, { p.reset with status := outcome.status })

/-- The solution of the last run, if it was optimal. -/
def solution? (p : Problem K) : Option (Solution K) :=
  p.solved.map fun s => .decode s.grounded.columns s.x s.objective

/-- The written form of the declarations. -/
def render (p : Problem K) : String :=
  let objective := (p.model.objective.map Expr.render).getD "0"
  "problem " ++ p.name ++ "\n"
    ++ "  decision: " ++ ", ".intercalate (p.model.decision.map PredicateTemplate.render) ++ "\n"
    ++ "  " ++ p.model.sense.render ++ " " ++ objective ++ "\n"
    ++ "  subject to\n"
    ++ String.join (p.model.constraints.map fun c => "    " ++ c.render ++ "\n")

end Problem

end RelationalLP
