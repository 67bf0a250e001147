import RelationalLP.Solving.Solver

/-! # The simplex method

A dense tableau in two phases. A free column is split into the difference of two nonnegative ones, each
inequality gets a slack, and each row gets an artificial column, so that phase one starts from the
identity. The entering column is the first with a negative reduced cost, and among the rows with the
least ratio the one with the least basic column leaves, which rules out cycling. -/

namespace RelationalLP

/-- The settings of the method. -/
structure SimplexOptions (K : Type) where
  /-- The greatest number of pivots. -/
  maxIterations : Nat
  /-- Numbers up to this magnitude count as zero. -/
  tolerance : K

/-- Ten thousand pivots and a tolerance of a billionth. -/
def SimplexOptions.standard {K : Type} [Scalar K] : SimplexOptions K :=
  { maxIterations := 10000, tolerance := 1e-9 }

/-- A tableau. Each row ends with its right side; `cost` holds the reduced costs and ends with the
negated objective. -/
structure Tableau (K : Type) where
  /-- The rows. -/
  rows : List (List K)
  /-- The reduced costs. -/
  cost : List K
  /-- The basic column of each row. -/
  basis : List Nat
  /-- The number of columns that are not artificial; the artificial ones follow. -/
  structural : Nat

namespace Tableau

variable {K : Type} [Scalar K]

/-! ### The first tableau -/

/-- The cells of a row of a matrix for the positive and the negative parts of the columns. -/
def splitRow (m : SparseMatrix K) (i n : Nat) : List K :=
  let row := m.row i
  (List.range n).map (fun j => (row.lookup j).getD 0)
    ++ (List.range n).map (fun j => ((row.lookup j).map (- ·)).getD 0)

/-- A row of a unit matrix. -/
def unitRow (size : Nat) (position : Option Nat) : List K :=
  (List.range size).map fun k => if position = some k then 1 else 0

/-- Turns the sign of a row when its right side is negative. -/
def orient (rhs : K) (cells : List K) : List K := if rhs < 0 then cells.map (- ·) else cells

/-- A row of the first tableau: its structural cells, its artificial column, its right side. -/
def firstRow (total i : Nat) (cells : List K) (rhs : K) : List K :=
  -- the artificial cell is one whichever sign the rest of the row takes
  let artificial := (orient rhs (List.replicate total 0)).set i 1
  orient rhs cells ++ artificial ++ orient rhs [rhs]

/-- The first tableau of a program: inequalities, then equations, all artificial columns basic. -/
def ofProgram (lp : LinearProgram K) : Tableau K :=
  let n := lp.columnCount
  let slacks := lp.inequalityCount
  let total := slacks + lp.equationCount
  let structural := 2 * n + slacks
  { rows :=
      lp.h.mapIdx (fun i rhs => firstRow total i (splitRow lp.g i n ++ unitRow slacks (some i)) rhs)
      ++ lp.b.mapIdx (fun i rhs =>
          firstRow total (slacks + i) (splitRow lp.a i n ++ unitRow slacks none) rhs)
    cost := List.replicate (structural + total + 1) 0
    basis := (List.range total).map (structural + ·)
    structural }

/-- The costs of the structural columns. -/
def structuralCosts (lp : LinearProgram K) : List K :=
  lp.c ++ lp.c.map (- ·) ++ List.replicate lp.inequalityCount 0

/-- The costs of phase one: one for each artificial column. -/
def artificialCosts (t : Tableau K) : List K :=
  List.replicate t.structural 0 ++ List.replicate t.rows.length 1

/-! ### Pivots -/

/-- The number of columns, the right side included. -/
def width (t : Tableau K) : Nat := t.structural + t.rows.length + 1

/-- The column of the right sides. -/
def rhsColumn (t : Tableau K) : Nat := t.structural + t.rows.length

/-- Subtracts the multiple of a row that has the given factor; a zero factor changes nothing. -/
def eliminate (factor : K) (pivotRow cells : List K) : List K :=
  if Scalar.isZero factor then cells
  else List.zipWith (fun v p => v - factor * p) cells pivotRow

/-- Loads costs and makes the reduced costs of the basic columns zero, row by row. -/
def price (t : Tableau K) (costs : List K) : Tableau K :=
  let start := costs ++ List.replicate (t.width - costs.length) 0
  -- each elimination works on the costs that the rows before it have left
  let cost := (t.basis.zip t.rows).foldl
    (fun cost (b, row) => eliminate (cost.getD b 0) row cost) start
  { t with cost }

/-- Makes a column basic in a row. -/
def pivot (t : Tableau K) (row col : Nat) : Tableau K :=
  let chosen := t.rows.getD row []
  let p := chosen.getD col 0
  let pivotRow := chosen.map (· / p)
  { t with
    rows := t.rows.mapIdx fun i cells =>
      if i = row then pivotRow else eliminate (cells.getD col 0) pivotRow cells
    cost := eliminate (t.cost.getD col 0) pivotRow t.cost
    basis := t.basis.set row col }

/-! ### Choice of the pivot -/

/-- The first allowed column with a negative reduced cost. -/
def entering? (t : Tableau K) (tolerance : K) (allowed : Nat) : Option Nat :=
  (t.cost.take allowed).findIdx? fun c => decide (c < -tolerance)

/-- The better of the best row so far and a row with a ratio: of equal ratios the row with the least
basic column. -/
def better (t : Tableau K) (tolerance : K) (best : Option (Nat × K)) (i : Nat) (ratio : K) :
    Option (Nat × K) :=
  match best with
  | none => some (i, ratio)
  | some (k, r) =>
    if r + tolerance < ratio ||
        (Scalar.abs (ratio - r) ≤ tolerance && t.basis.getD k 0 < t.basis.getD i 0) then
      some (k, r)
    else some (i, ratio)

/-- The row that limits the growth of a column, if one does. -/
def leaving? (t : Tableau K) (tolerance : K) (col : Nat) : Option Nat :=
  let best := t.rows.zipIdx.foldl (fun best (cells, i) =>
    let v := cells.getD col 0
    if v ≤ tolerance then best
    else t.better tolerance best i (cells.getD t.rhsColumn 0 / v)) none
  best.map Prod.fst

/-! ### Optimization -/

/-- How a phase ends. -/
inductive PhaseEnd (K : Type) where
  /-- No reduced cost is negative; with the number of pivots left. -/
  | optimal (t : Tableau K) (left : Nat)
  /-- A column grows without limit; with the number of pivots left. -/
  | unbounded (t : Tableau K) (left : Nat)
  /-- No pivot is left. -/
  | exhausted

/-- Pivots while an allowed column has a negative reduced cost, at most `left` times. -/
def optimize (tolerance : K) (allowed : Nat) (left : Nat) (t : Tableau K) : PhaseEnd K :=
  match t.entering? tolerance allowed with
  | none => .optimal t left
  | some col =>
    match t.leaving? tolerance col with
    | none => .unbounded t left
    | some row =>
      -- only a pivot that is needed counts against the limit
      match left with
      | 0 => .exhausted
      | left + 1 => optimize tolerance allowed left (t.pivot row col)

/-- Makes a structural column basic in a row whose basic column is artificial, when one has a cell
above the tolerance there. -/
def driveOut (tolerance : K) (t : Tableau K) (i : Nat) : Tableau K :=
  if t.basis.getD i 0 < t.structural then t
  else
    match ((t.rows.getD i []).take t.structural).findIdx? fun v =>
        decide (tolerance < Scalar.abs v) with
    | some j => t.pivot i j
    | none => t

/-- Whether artificial columns keep a value after phase one, relative to the right sides. -/
def isInfeasible (tolerance : K) (t : Tableau K) : Bool :=
  -- the cost row ends with the negated sum of the artificial columns
  let infeasibility := -(t.cost.getD t.rhsColumn 0)
  let scale := 1 + Scalar.sum (t.rows.map fun r => Scalar.abs (r.getD t.rhsColumn 0))
  decide (tolerance * Scalar.atLeast 1 scale * 1e3 < infeasibility)

/-- The value of a structural column: the right side of the row in which it is basic, zero in no row.
With a negative tolerance a column may become basic in two rows, of which the last counts. -/
def value (t : Tableau K) (j : Nat) : K :=
  (t.basis.zip t.rows).foldl (fun v (b, row) => if b = j then row.getD t.rhsColumn 0 else v) 0

/-- The point of the program that a tableau stands for. -/
def point (t : Tableau K) (n : Nat) : List K :=
  (List.range n).map fun j => t.value j - t.value (n + j)

end Tableau

namespace Simplex

variable {K : Type} [Scalar K]

/-- Phase two, after the artificial columns were driven out. -/
def phaseTwo (options : SimplexOptions K) (lp : LinearProgram K) (left : Nat) (t : Tableau K) :
    Except SolverError (Outcome K) :=
  let start := (List.range t.rows.length).foldl (Tableau.driveOut options.tolerance) t
  match (start.price (Tableau.structuralCosts lp)).optimize options.tolerance t.structural left with
  | .optimal t _ =>
    let x := t.point lp.columnCount
    .ok (.optimal x (lp.objective x))
  | .unbounded _ _ => .ok .unbounded
  | .exhausted => .error (.iterationLimit options.maxIterations)

/-- Both phases. Phase one is bounded below by zero; should rounding make a column of it grow without
limit, its last tableau is judged like an optimal one. -/
def run (options : SimplexOptions K) (lp : LinearProgram K) : Except SolverError (Outcome K) :=
  let start := Tableau.ofProgram lp
  match (start.price start.artificialCosts).optimize options.tolerance start.rhsColumn
      options.maxIterations with
  | .optimal t left | .unbounded t left =>
    if t.isInfeasible options.tolerance then .ok .infeasible else phaseTwo options lp left t
  | .exhausted => .error (.iterationLimit options.maxIterations)

/-- Solves a program that passes the checks. -/
def solve (options : SimplexOptions K) : Solver K := fun lp => do
  lp.validate
  run options lp

end Simplex

end RelationalLP
