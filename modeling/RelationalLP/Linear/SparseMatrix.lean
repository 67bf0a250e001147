import RelationalLP.Collections.BinarySearch
import RelationalLP.Linear.Tally
import RelationalLP.Number.Word

/-! # Sparse matrices

Matrices given by their nonzero entries in the order of rows and columns. Operations whose indices may
fall outside have a checked form that ends in a question mark. -/

namespace RelationalLP

/-- A matrix with its nonzero entries. -/
structure SparseMatrix (K : Type) where
  /-- The number of rows. -/
  rows : Nat
  /-- The number of columns. -/
  cols : Nat
  /-- The stored entries, by position. -/
  entries : List (Position × K) := []

namespace SparseMatrix

variable {K : Type}

/-- The matrix of zeros. -/
def zeros (rows cols : Nat) : SparseMatrix K := { rows, cols }

/-- Whether a position lies in a matrix of this size. -/
def inRange (rows cols : Nat) (p : Position) : Bool := p.1 < rows && p.2 < cols

variable [Scalar K]

/-- The matrix of the sums of some entries. -/
def ofTriplets (rows cols : Nat) (triplets : List (Position × K)) : SparseMatrix K :=
  { rows, cols, entries := (Tally.ofList triplets).filter fun (_, v) => !Scalar.isZero v }

/-- The matrix of the sums of some entries, none of which may lie outside. -/
def ofTriplets? (rows cols : Nat) (triplets : List (Position × K)) : Option (SparseMatrix K) :=
  if triplets.all fun (p, _) => inRange rows cols p then some (ofTriplets rows cols triplets)
  else none

/-- The number of stored entries. -/
def entryCount (m : SparseMatrix K) : Nat := m.entries.length

/-- The entry at a position, sought among the stored ones. -/
def get (m : SparseMatrix K) (row col : Nat) : K :=
  match BinarySearch.search (fun (p, _) => p.order (row, col)) m.entries with
  | .ok place => (m.entries[place]?.map Prod.snd).getD 0
  | .error _ => 0

/-- The stored entries of a row with their columns: those from the start of the row up to the next one. -/
def row (m : SparseMatrix K) (i : Nat) : List (Nat × K) :=
  let start := BinarySearch.partitionPoint (fun (p, _) => p.1 < i) m.entries
  ((m.entries.drop start).takeWhile fun (p, _) => p.1 == i).map fun (p, v) => (p.2, v)

/-- Adds the product of each stored entry with its cell of a vector to the total of its row; a missing cell
counts as zero. -/
def addProducts (m : SparseMatrix K) (x : List K) (totals : List K) : List K :=
  m.entries.foldl (fun totals (p, v) => totals.modify p.1 (· + v * x.getD p.2 0)) totals

/-- The product with a vector. -/
def mulVec (m : SparseMatrix K) (x : List K) : List K := m.addProducts x (List.replicate m.rows 0)

/-- The product with a vector, which needs a cell for each column, as far as a list of its cells can be
held. -/
def mulVec? (m : SparseMatrix K) (x : List K) : Option (List K) :=
  if x.length = m.cols ∧ m.rows ≤ Word.greatestLength then some (m.mulVec x) else none

/-- The first cells of the product with a vector, at most `count`. -/
def firstCells (m : SparseMatrix K) (count : Nat) (x : List K) : List K :=
  m.addProducts x (List.replicate (min count m.rows) 0)

/-- The first totals do not depend on the others. -/
theorem take_addProducts (m : SparseMatrix K) (x totals : List K) (count : Nat) :
    (m.addProducts x totals).take count = m.addProducts x (totals.take count) := by
  unfold addProducts
  induction m.entries generalizing totals with
  | nil => rfl
  | cons e es ih => rw [List.foldl_cons, List.foldl_cons, ih, List.take_modify]

/-- The first cells are the beginning of the product. -/
theorem firstCells_eq_take (m : SparseMatrix K) (count : Nat) (x : List K) :
    m.firstCells count x = (m.mulVec x).take count := by
  rw [firstCells, mulVec, take_addProducts, List.take_replicate]

/-- The first cells of a product whose cells can be held; a list of `count` cells can. -/
def firstCells? (m : SparseMatrix K) (count : Nat) (x : List K) : Option (List K) :=
  if x.length = m.cols ∧ m.rows ≤ max count Word.greatestLength then some (m.firstCells count x)
  else none

/-- The matrix of the given rows in that order; a row past the end is a row of zeros. -/
def selectRows (m : SparseMatrix K) (rows : List Nat) : SparseMatrix K :=
  ofTriplets rows.length m.cols
    (rows.zipIdx.flatMap fun (old, new) => (m.row old).map fun (j, v) => ((new, j), v))

/-- The matrix with `cols` columns in which column `j` is added to column `classOf j`. -/
def mergeColumns (m : SparseMatrix K) (classOf : Nat → Nat) (cols : Nat) : SparseMatrix K :=
  ofTriplets m.rows cols (m.entries.map fun (p, v) => ((p.1, classOf p.2), v))

/-- Adds columns by a list of classes, which has to cover every stored entry. -/
def mergeColumns? (m : SparseMatrix K) (classes : List Nat) (cols : Nat) :
    Option (SparseMatrix K) :=
  if m.entries.all fun (p, _) =>
      p.2 < classes.length && inRange m.rows cols (p.1, classes.getD p.2 0) then
    some (m.mergeColumns (classes.getD · 0) cols)
  else none

/-- All entries, row by row: zeros into which the stored entries are written. -/
def toDense (m : SparseMatrix K) : List (List K) :=
  m.entries.foldl (fun dense (p, v) => dense.modify p.1 (·.set p.2 v))
    (List.replicate m.rows (List.replicate m.cols 0))

/-- All entries, as far as they can be held; a row takes the room of three numbers in the list of
rows. -/
def toDense? (m : SparseMatrix K) : Option (List (List K)) :=
  if m.cols ≤ Word.greatestLength ∧ m.rows ≤ Word.greatestLength / 3 then some m.toDense else none

end SparseMatrix

end RelationalLP
