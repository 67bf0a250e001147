import RelationalLP.Linear.SparseMatrix

/-! # Linear programs

Programs in standard form: minimize `c·x` subject to `G x ≤ h` and `A x = b`, with `x` free. -/

namespace RelationalLP

/-- A linear program in standard form. -/
structure LinearProgram (K : Type) where
  /-- The objective. -/
  c : List K
  /-- The matrix of the inequalities. -/
  g : SparseMatrix K
  /-- The right sides of the inequalities. -/
  h : List K
  /-- The matrix of the equations. -/
  a : SparseMatrix K
  /-- The right sides of the equations. -/
  b : List K

namespace LinearProgram

variable {K : Type} [Scalar K]

/-- The number of columns. -/
def columnCount (lp : LinearProgram K) : Nat := lp.c.length

/-- The number of inequalities. -/
def inequalityCount (lp : LinearProgram K) : Nat := lp.h.length

/-- The number of equations. -/
def equationCount (lp : LinearProgram K) : Nat := lp.b.length

/-- The objective at a point. -/
def objective (lp : LinearProgram K) (x : List K) : K :=
  Scalar.sum (List.zipWith (· * ·) lp.c x)

/-- Whether products with the matrices satisfy the right sides within a tolerance. -/
def satisfied (lp : LinearProgram K) (tolerance : K) (gx ax : List K) : Bool :=
  (List.zipWith (fun l r => decide (l ≤ r + tolerance)) gx lp.h).all id &&
    (List.zipWith (fun l r => decide (Scalar.abs (l - r) ≤ tolerance)) ax lp.b).all id

/-- Whether a point satisfies every row within a tolerance; a point with the wrong number of
coordinates does not. None when the matrices and the objective disagree on the number of columns, or
when a matrix has so many rows that its product cannot be held. -/
def isFeasible? (lp : LinearProgram K) (x : List K) (tolerance : K) : Option Bool :=
  if x.length ≠ lp.columnCount then some false
  else
    -- only cells with a right side are compared
    match lp.g.firstCells? lp.inequalityCount x, lp.a.firstCells? lp.equationCount x with
    | some gx, some ax => some (lp.satisfied tolerance gx ax)
    | _, _ => none

/-- A summary of the size. -/
def render (lp : LinearProgram K) : String :=
  "LP: " ++ toString lp.columnCount ++ " column(s), " ++ toString lp.inequalityCount
    ++ " inequality row(s) (" ++ toString lp.g.entryCount ++ " nnz), "
    ++ toString lp.equationCount ++ " equality row(s) (" ++ toString lp.a.entryCount ++ " nnz)"

end LinearProgram

end RelationalLP
