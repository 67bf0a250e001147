import RelationalLP.Linear.Program
import RelationalLP.Solving.Error

/-! # Solvers

What a solver answers, and the checks that a program passes before it is solved. -/

namespace RelationalLP

/-- The answer to a program. -/
inductive Outcome (K : Type) where
  /-- A point with the least objective. -/
  | optimal (x : List K) (objective : K)
  /-- No point satisfies all rows. -/
  | infeasible
  /-- The objective has no lower bound. -/
  | unbounded

/-- What is known of a program. -/
inductive SolveStatus where
  /-- It was not solved. -/
  | unsolved
  /-- An optimal point is known. -/
  | optimal
  /-- No point is feasible. -/
  | infeasible
  /-- The objective is unbounded. -/
  | unbounded
  deriving DecidableEq, Inhabited

/-- The word for a status. -/
def SolveStatus.render : SolveStatus → String
  | unsolved => "unsolved"
  | optimal => "optimal"
  | infeasible => "infeasible"
  | unbounded => "unbounded"

/-- The status that an answer leaves. -/
def Outcome.status {K : Type} : Outcome K → SolveStatus
  | optimal _ _ => .optimal
  | infeasible => .infeasible
  | unbounded => .unbounded

/-- A method of solving programs. -/
abbrev Solver (K : Type) := LinearProgram K → Except SolverError (Outcome K)

/-- The status after a run: an error leaves a program unsolved. -/
def SolveStatus.ofResult {K : Type} : Except SolverError (Outcome K) → SolveStatus
  | .ok o => o.status
  | .error _ => .unsolved

namespace LinearProgram

variable {K : Type}

/-- The sizes that have to agree, each with what it should be. -/
def sizeChecks (lp : LinearProgram K) : List (String × Nat × Nat) :=
  [("G column count", lp.c.length, lp.g.cols), ("A column count", lp.c.length, lp.a.cols),
    ("h", lp.g.rows, lp.h.length), ("b", lp.a.rows, lp.b.length)]

/-- The parts whose numbers have to be finite. -/
def finiteChecks (lp : LinearProgram K) : List (String × List K) :=
  [("c", lp.c), ("h", lp.h), ("b", lp.b), ("G/A", (lp.g.entries ++ lp.a.entries).map Prod.snd)]

/-- Checks that all sizes agree and all numbers are finite; the first fault counts. -/
def validate [Scalar K] (lp : LinearProgram K) : Except SolverError Unit :=
  match lp.sizeChecks.find? fun (_, expected, found) => expected ≠ found with
  | some (what, expected, found) => .error (.dimension what expected found)
  | none =>
    match lp.finiteChecks.find? fun (_, xs) => !xs.all Scalar.isFinite with
    | some (what, _) => .error (.nonFinite what)
    | none => .ok ()

end LinearProgram

end RelationalLP
