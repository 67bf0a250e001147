import RelationalLP.Collections.OrderedIndex
import RelationalLP.Solving.Error
import RelationalLP.Symmetry.Incidence

/-! # Partitions of rows and columns

Classes of rows and columns, and the colour refinement that computes them: a node is recoloured by its
colour and the multiset of the colours of its edges and neighbours, until the number of colours stops
growing. -/

namespace RelationalLP

/-- Numbers labels in order of first appearance. -/
def relabel {α : Type} [DecidableEq α] [Fingerprint α] (labels : List α) : List Nat :=
  let known := OrderedIndex.ofList labels
  labels.map known.numberOf

/-- The number of different labels. -/
def labelCount (labels : List Nat) : Nat := (OrderedIndex.ofList labels).size

/-- Class numbers of the rows and of the columns, each in order of first appearance. -/
structure Partition where
  /-- The class of each row. -/
  rowClasses : List Nat
  /-- The class of each column. -/
  colClasses : List Nat
  deriving DecidableEq

namespace Partition

/-- The partition with the given labels. -/
def ofLabels (rows cols : List Nat) : Partition := ⟨relabel rows, relabel cols⟩

/-- Every row and every column in a class of its own. -/
def discrete (rows cols : Nat) : Partition := ofLabels (List.range rows) (List.range cols)

/-- Every row and every column in a class of its own, as far as the classes can be held. -/
def discrete? (rows cols : Nat) : Option Partition :=
  if rows ≤ Word.greatestLength ∧ cols ≤ Word.greatestLength then some (discrete rows cols) else none

/-- The number of classes of rows. -/
def rowClassCount (p : Partition) : Nat := labelCount p.rowClasses

/-- The number of classes of columns. -/
def colClassCount (p : Partition) : Nat := labelCount p.colClasses

end Partition

/-- A way to compute a partition of a coloured graph. -/
abbrev PartitionOracle := ColoredIncidence → Except LiftError Partition

namespace ColorRefinement

/-- The neighbours of each node with the colours of the edges; columns follow rows. -/
abbrev Adjacency := List (List (Nat × Nat))

/-- Whether both ends of an edge are nodes. -/
def isInside (i : ColoredIncidence) (e : ColoredEdge) : Bool :=
  e.row < i.rowCount + i.colCount && e.col < i.colCount

/-- The neighbours of a node: pairs of an edge colour and a node. -/
def neighbors (i : ColoredIncidence) (node : Nat) : List (Nat × Nat) :=
  i.edges.flatMap fun e =>
    (if e.row = node then [(e.color, i.rowCount + e.col)] else [])
      ++ (if i.rowCount + e.col = node then [(e.color, e.row)] else [])

/-- The neighbours of all nodes. -/
def adjacency (i : ColoredIncidence) : Adjacency :=
  (List.range (i.rowCount + i.colCount)).map (neighbors i)

/-- The order of pairs of colours. -/
def pairLe (p q : Nat × Nat) : Bool := p.1 < q.1 || (p.1 == q.1 && p.2 ≤ q.2)

/-- The colours around a node, sorted. -/
def neighborhood (colors : List Nat) (around : List (Nat × Nat)) : List (Nat × Nat) :=
  (around.map fun (edge, node) => (edge, colors.getD node 0)).mergeSort pairLe

/-- One round: each node gets its colour together with the colours around it. -/
def refineOnce (adj : Adjacency) (colors : List Nat) : List Nat :=
  relabel (List.zipWith (fun c around => (c, neighborhood colors around)) colors adj)

/-- Rounds until the number of colours stops growing, at most `rounds`. -/
def refine (adj : Adjacency) : Nat → List Nat → List Nat
  | 0, colors => colors
  | rounds + 1, colors =>
    -- a round only splits classes, so an equal number of them means equal classes
    let next := refineOnce adj colors
    if labelCount next = labelCount colors then next else refine adj rounds next

/-- The first colours: those of the incidence, rows apart from columns. -/
def initial (i : ColoredIncidence) : List Nat :=
  relabel (i.rowColors.map ((0 : Nat), ·) ++ i.colColors.map ((1 : Nat), ·))

/-- The stable colours of the nodes. There are no more colours than nodes, so the number of nodes
bounds the number of rounds. -/
def stableColors (i : ColoredIncidence) : List Nat :=
  refine (adjacency i) (max 1 (i.rowCount + i.colCount)) (initial i)

/-- The coarsest partition that colours alone can tell. -/
def partition : PartitionOracle := fun i =>
  if i.edges.all (isInside i) then
    let colors := stableColors i
    .ok (Partition.ofLabels (colors.take i.rowCount) (colors.drop i.rowCount))
  else .error .entryOutside

end ColorRefinement

end RelationalLP
