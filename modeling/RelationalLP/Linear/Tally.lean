import RelationalLP.Number.Scalar

/-! # Tallies

Sums of numbers by position, kept in the order of the positions. A position is a pair of indices; pairs
are ordered by the first index and then by the second. -/

namespace RelationalLP

/-- A pair of indices: a cell of a matrix, or a column of a block. -/
abbrev Position := Nat × Nat

/-- The order of positions. -/
def Position.before (p q : Position) : Bool := p.1 < q.1 || (p.1 == q.1 && p.2 < q.2)

/-- How a position compares with another one. -/
def Position.order (p q : Position) : Ordering := (compare p.1 q.1).then (compare p.2 q.2)

/-- Sums by position, in the order of positions. -/
abbrev Tally (K : Type) := List (Position × K)

namespace Tally

variable {K : Type} [Scalar K]

/-- Adds a number at a position; a new position starts from zero. -/
def add (p : Position) (v : K) : Tally K → Tally K
  | [] => [(p, 0 + v)]
  | (q, x) :: rest =>
    if p = q then (q, x + v) :: rest
    else if p.before q then (p, 0 + v) :: (q, x) :: rest
    else (q, x) :: add p v rest

/-- The sums of a list of numbers with positions, added in order. -/
def ofList (items : List (Position × K)) : Tally K := items.foldl (fun t (p, v) => t.add p v) []

/-- The sum at a position, zero where nothing was added. -/
def get (t : Tally K) (p : Position) : K := (t.lookup p).getD 0

end Tally

end RelationalLP
