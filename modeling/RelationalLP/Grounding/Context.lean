import RelationalLP.Grounding.Columns
import RelationalLP.Grounding.Error
import RelationalLP.Linear.Program
import RelationalLP.Model

/-! # The state of grounding

Columns are handed out as they are first seen, as a key of predicate and place; their final numbers are
known only when all rows are there. Finishing lays the columns out by predicate and assembles the
program. -/

namespace RelationalLP

/-- A grounded row: the sum of its entries times their columns and of its constant is at most zero, or
equal to zero. -/
structure GroundRow (K : Type) where
  /-- The coefficients by column key. -/
  entries : Tally K
  /-- The constant. -/
  constant : K

namespace GroundRow

variable {K : Type} [Scalar K]

/-- The row of zeros. -/
def empty : GroundRow K := ⟨[], 0⟩

/-- Adds to the coefficient of a column. -/
def add (r : GroundRow K) (key : Position) (v : K) : GroundRow K :=
  { r with entries := r.entries.add key v }

/-- Adds to the constant. -/
def addConstant (r : GroundRow K) (v : K) : GroundRow K := { r with constant := r.constant + v }

/-- Whether some coefficient is not zero. -/
def hasDecisions (r : GroundRow K) : Bool := r.entries.any fun (_, v) => !Scalar.isZero v

/-- Up to this magnitude the constant of a row without decisions counts as zero. -/
def zeroTolerance : K := 1e-9

/-- Whether a row without decisions holds. -/
def holds (r : GroundRow K) (kind : RelationKind) : Bool :=
  match kind with
  | .eq => decide (Scalar.abs r.constant ≤ zeroTolerance)
  | .le | .ge => decide (r.constant ≤ zeroTolerance)

end GroundRow

/-- A grounded model. -/
structure Grounded (K : Type) [Scalar K] where
  /-- The program. -/
  program : LinearProgram K
  /-- The decision variables of its columns. -/
  columns : ColumnMap K

/-- What has been grounded so far. -/
structure GroundingContext (K : Type) [Scalar K] where
  /-- The model. -/
  model : Model K
  /-- The argument tuples seen, for each decision predicate. -/
  columns : List (OrderedIndex (Tuple K))
  /-- The objective by column key. -/
  objective : Tally K
  /-- The inequalities, each at most zero. -/
  inequalities : List (GroundRow K)
  /-- The equations. -/
  equalities : List (GroundRow K)

namespace GroundingContext

variable {K : Type} [Scalar K]

/-- The state before anything is grounded. -/
def start (model : Model K) : GroundingContext K :=
  { model, columns := model.decision.map fun _ => .empty, objective := []
    inequalities := [], equalities := [] }

/-- The first column of the block of a predicate. -/
def offset (ctx : GroundingContext K) (t : Nat) : Nat :=
  OrderedIndex.totalSize (ctx.columns.take t)

/-- The number of a column in the final layout. -/
def columnOf (ctx : GroundingContext K) (key : Position) : Nat := ctx.offset key.1 + key.2

/-- The number of columns. -/
def columnCount (ctx : GroundingContext K) : Nat := OrderedIndex.totalSize ctx.columns

/-- The key of a ground decision atom, which is added when it is new. -/
def column (ctx : GroundingContext K) (a : Atom K) :
    Except GroundError (Position × GroundingContext K) :=
  match ctx.model.decisionIndex? a.template with
  | none => .error (.undeclaredDecision a.template.render)
  | some t =>
    match a.ground? with
    | none => .error (.resolution ("unbound decision variable '" ++ a.render ++ "'"))
    | some tuple =>
      -- a tuple that was seen before keeps its number
      let index := (ctx.columns.getD t .empty).insert tuple
      .ok ((t, index.numberOf tuple), { ctx with columns := ctx.columns.set t index })

/-- Adds to the coefficient of a column in the objective. -/
def addObjective (ctx : GroundingContext K) (key : Position) (v : K) : GroundingContext K :=
  { ctx with objective := ctx.objective.add key v }

/-- Adds a finished row and says whether it is kept. A row without decisions is dropped when it holds,
and otherwise makes the constraint with the given text infeasible. -/
def pushRow (ctx : GroundingContext K) (kind : RelationKind) (row : GroundRow K)
    (constraint : String) : Except GroundError (Bool × GroundingContext K) :=
  if row.hasDecisions then
    match kind with
    | .eq => .ok (true, { ctx with equalities := ctx.equalities ++ [row] })
    | .le | .ge => .ok (true, { ctx with inequalities := ctx.inequalities ++ [row] })
  else if row.holds kind then .ok (false, ctx)
  else .error (.infeasible constraint)

/-- The objective in the final layout, to be minimized. -/
def objectiveVector (ctx : GroundingContext K) : List K :=
  ctx.objective.foldl
    (fun c (key, v) => c.modify (ctx.columnOf key) (· + ctx.model.sense.factor * v))
    (List.replicate ctx.columnCount 0)

/-- The matrix of some rows in the final layout. -/
def matrix (ctx : GroundingContext K) (rows : List (GroundRow K)) : SparseMatrix K :=
  SparseMatrix.ofTriplets rows.length ctx.columnCount
    (rows.zipIdx.flatMap fun (row, i) => row.entries.map fun (key, v) => ((i, ctx.columnOf key), v))

/-- The right sides of some rows. -/
def rightSides (rows : List (GroundRow K)) : List K := rows.map fun row => -row.constant

/-- Assembles the program. -/
def finish (ctx : GroundingContext K) : Grounded K where
  program :=
    { c := ctx.objectiveVector
      g := ctx.matrix ctx.inequalities
      h := rightSides ctx.inequalities
      a := ctx.matrix ctx.equalities
      b := rightSides ctx.equalities }
  columns := ColumnMap.ofTemplates (ctx.model.decision.zip ctx.columns)

end GroundingContext

end RelationalLP
