import RelationalLP.Collections.BinarySearch
import RelationalLP.Linear.Program

/-! # Coloured incidence

The rows and columns of a program as the two sides of a graph whose edges are the matrix entries. Rows
are coloured by their right sides, columns by the objective, edges by their entries; a colour is the
place of a rounded value among the sorted ones. -/

namespace RelationalLP

variable {K : Type} [Scalar K]

/-- The value by which numbers are told apart: rounded to six decimals where that does not leave the
range of the format, and without a negative zero. -/
def colorKey (v : K) : K :=
  let scale : K := Scalar.ofInt 1000000
  let key := if Scalar.abs v < Scalar.greatest / scale then Scalar.round (v * scale) / scale else v
  if Scalar.isZero key then 0 else key

/-- The keys of some values in increasing order, each once. -/
def sortedKeys (values : List K) : List K :=
  ((values.map colorKey).mergeSort fun x y => (compare x y).isLE).eraseRepsBy fun x y =>
    (compare x y).isEq

/-- The place of the key of each value among the sorted keys, and the number of keys. -/
def palette (values : List K) : List Nat × Nat :=
  let known := sortedKeys values
  (values.map fun v => BinarySearch.place (compare · (colorKey v)) known, known.length)

/-- An edge between a row and a column. -/
structure ColoredEdge where
  /-- The row. -/
  row : Nat
  /-- The column. -/
  col : Nat
  /-- The colour of the entry. -/
  color : Nat
  deriving DecidableEq

/-- The coloured graph of a program; inequalities come before equations. -/
structure ColoredIncidence where
  /-- The number of inequalities. -/
  inequalities : Nat
  /-- The colours of the rows. -/
  rowColors : List Nat
  /-- The colours of the columns. -/
  colColors : List Nat
  /-- The edges by row and column. -/
  edges : List ColoredEdge
  deriving DecidableEq

namespace ColoredIncidence

/-- The number of rows. -/
def rowCount (i : ColoredIncidence) : Nat := i.rowColors.length

/-- The number of columns. -/
def colCount (i : ColoredIncidence) : Nat := i.colColors.length

/-- The coloured graph of a program. Equations never share a colour with inequalities. -/
def ofProgram (lp : LinearProgram K) : ColoredIncidence :=
  let (upper, shift) := palette lp.h
  let (lower, _) := palette lp.b
  let entries := lp.g.entries
    ++ lp.a.entries.map fun (p, v) => ((p.1 + lp.inequalityCount, p.2), v)
  let (colors, _) := palette (entries.map Prod.snd)
  { inequalities := lp.inequalityCount
    rowColors := upper ++ lower.map (· + shift)
    colColors := (palette lp.c).1
    edges := List.zipWith (fun e color => ⟨e.1.1, e.1.2, color⟩) entries colors }

/-- The coloured graph of a program, when the rows of its equations can be numbered after those of its
inequalities. -/
def ofProgram? (lp : LinearProgram K) : Option ColoredIncidence :=
  if lp.a.entries.all fun (p, _) => Word.fits (p.1 + lp.inequalityCount) then some (ofProgram lp)
  else none

end ColoredIncidence

end RelationalLP
