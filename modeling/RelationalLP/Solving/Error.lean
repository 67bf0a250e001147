/-! # Errors of solvers

Why a program is refused, and why a reduction of it fails. -/

namespace RelationalLP

/-- Why a program cannot be reduced by a partition. -/
inductive LiftError where
  /-- The partition covers a different number of rows or columns. -/
  | partitionSize (what : String) (expected found : Nat)
  /-- A class has inequalities and equations. -/
  | mixedRowClass (rowClass : Nat)
  /-- No partition could be computed, with the reason. -/
  | oracle (reason : String)
  /-- A matrix has an entry that belongs to no row or column of the program. -/
  | entryOutside
  deriving DecidableEq

/-- The wording of an error. -/
def LiftError.message : LiftError → String
  | partitionSize what expected found =>
    "Lifting error: partition covers " ++ toString found ++ " " ++ what ++ ", expected "
      ++ toString expected
  | mixedRowClass rowClass =>
    "Lifting error: row class " ++ toString rowClass ++ " mixes inequality and equality rows"
  | oracle reason => "Lifting error: oracle failed: " ++ reason
  | entryOutside => "Lifting error: matrix entry outside the program"

/-- Why a program is not solved. -/
inductive SolverError where
  /-- A vector or a matrix of the wrong size. -/
  | dimension (what : String) (expected found : Nat)
  /-- A part with a number that is not finite. -/
  | nonFinite (what : String)
  /-- The bound on the number of pivots was reached. -/
  | iterationLimit (limit : Nat)
  /-- The reduction of the program failed. -/
  | preprocess (cause : LiftError)
  deriving DecidableEq

/-- The wording of an error. -/
def SolverError.message : SolverError → String
  | dimension what expected found =>
    "Solver error: " ++ what ++ " has size " ++ toString found ++ ", expected " ++ toString expected
  | nonFinite what => "Solver error: " ++ what ++ " contains a non-finite value"
  | iterationLimit limit => "Solver error: iteration limit of " ++ toString limit ++ " reached"
  | preprocess cause => "Solver error: preprocessing failed: " ++ cause.message

end RelationalLP
