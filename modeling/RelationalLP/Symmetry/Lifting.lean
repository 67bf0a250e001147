import RelationalLP.Solving.Solver
import RelationalLP.Symmetry.Partition

/-! # Lifting

A program reduced by a partition: one row for each class of rows, one column for each class of columns.
A point of the reduced program expands to one that is constant on each class of columns. -/

namespace RelationalLP

/-- A reduced program with the matrix that expands its points. -/
structure LiftedProgram (K : Type) where
  /-- The reduced program. -/
  reduced : LinearProgram K
  /-- The matrix with a one for each column at its class. -/
  basis : SparseMatrix K

namespace LiftedProgram

variable {K : Type} [Scalar K]

/-- The point with the value of its class in each column. -/
def expand (l : LiftedProgram K) (y : List K) : List K := l.basis.mulVec y

/-- The expansion of a point that has a value for each class. -/
def expand? (l : LiftedProgram K) (y : List K) : Option (List K) := l.basis.mulVec? y

end LiftedProgram

namespace LinearProgram

variable {K : Type} [Scalar K]

/-- The first member of each class, in order. -/
def representatives (classes : List Nat) : List Nat := (distinct classes).map classes.idxOf

/-- The sums of the objective over the classes of columns. -/
def mergeObjective (c : List K) (classes : List Nat) (count : Nat) : List K :=
  (List.range count).map fun k =>
    (classes.zip c).foldl (fun total (j, v) => if j = k then total + v else total) 0

/-- Checks that a partition covers the program and that no class has inequalities and equations. -/
def checkPartition (lp : LinearProgram K) (p : Partition) : Except LiftError Unit :=
  let rows := lp.inequalityCount + lp.equationCount
  if rows ≠ p.rowClasses.length then .error (.partitionSize "rows" rows p.rowClasses.length)
  else if lp.columnCount ≠ p.colClasses.length then
    .error (.partitionSize "columns" lp.columnCount p.colClasses.length)
  else
    match (p.rowClasses.take lp.inequalityCount).find?
        (· ∈ p.rowClasses.drop lp.inequalityCount) with
    | some k => .error (.mixedRowClass k)
    | none => .ok ()

/-- Keeps some rows of a matrix and adds up the columns of each class. -/
def reduceMatrix (m : SparseMatrix K) (rows : List Nat) (p : Partition) :
    Except LiftError (SparseMatrix K) :=
  match (m.selectRows rows).mergeColumns? p.colClasses p.colClassCount with
  | some reduced => .ok reduced
  | none => .error .entryOutside

/-- The program reduced by a partition. -/
def liftWith (lp : LinearProgram K) (p : Partition) : Except LiftError (LiftedProgram K) := do
  lp.checkPartition p
  -- no class is mixed, so inequalities and equations have representatives of their own
  let upper := representatives (p.rowClasses.take lp.inequalityCount)
  let lower := representatives (p.rowClasses.drop lp.inequalityCount)
  let g ← reduceMatrix lp.g upper p
  let a ← reduceMatrix lp.a lower p
  return {
    reduced :=
      { c := mergeObjective lp.c p.colClasses p.colClassCount
        g, h := upper.map (lp.h.getD · 0)
        a, b := lower.map (lp.b.getD · 0) }
    basis := SparseMatrix.ofTriplets lp.columnCount p.colClassCount
      (p.colClasses.zipIdx.map fun (k, j) => ((j, k), 1)) }

/-- The program reduced by the partition of an oracle. -/
def lift (lp : LinearProgram K) (oracle : PartitionOracle) : Except LiftError (LiftedProgram K) := do
  match ColoredIncidence.ofProgram? lp with
  | some incidence => lp.liftWith (← oracle incidence)
  | none => .error .entryOutside

end LinearProgram

/-- Solves a program through its reduction; an optimal point is expanded. -/
def Solver.lifted {K : Type} [Scalar K] (inner : Solver K) (oracle : PartitionOracle) :
    Solver K := fun lp =>
  match lp.lift oracle with
  | .error e => .error (.preprocess e)
  | .ok l =>
    match inner l.reduced with
    | .ok (.optimal y _) =>
      let x := l.expand y
      .ok (.optimal x (lp.objective x))
    | r => r

end RelationalLP
