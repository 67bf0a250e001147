/-! # Binary search

A search that halves a list. The order says of each item whether it stands before the place that is sought,
at it or after it; the answer is right for lists in which the items before stand first and the items after
stand last. -/

namespace RelationalLP

namespace BinarySearch

variable {α : Type}

/-- Narrows `size` items that start at `base` down to one: the half that starts in the middle is kept unless
its first item stands after the place that is sought. -/
def narrow (order : α → Ordering) (items : List α) (base size : Nat) : Nat :=
  if size ≤ 1 then base
  else
    let half := size / 2
    let middle := base + half
    narrow order items (if items[middle]?.map order = some .gt then base else middle) (size - half)
termination_by size
decreasing_by omega

/-- The index of an item at the place that is sought, or else the index at which one could be inserted. -/
def search (order : α → Ordering) (items : List α) : Except Nat Nat :=
  let place := narrow order items 0 items.length
  match items[place]?.map order with
  | some .eq => .ok place
  | some .lt => .error (place + 1)
  | some .gt | none => .error place

/-- The index that the search ends in, whether something is found there or could be inserted. -/
def place (order : α → Ordering) (items : List α) : Nat :=
  match search order items with
  | .ok place | .error place => place

/-- The number of items that pass a test, in a list where they stand before all others. -/
def partitionPoint (test : α → Bool) (items : List α) : Nat :=
  place (fun a => if test a then .lt else .gt) items

end BinarySearch

end RelationalLP
