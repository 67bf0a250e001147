import RelationalLP.Collections.Fingerprint
import Std.Data.TreeMap.Lemmas

/-! # Places

Where the items of a list stand, filed by fingerprint: a search compares only the items that share the
fingerprint of the one that is sought. The main statements say that a search finds exactly the items
that were added, at the place where they were added last. -/

namespace RelationalLP

/-- Items with their places. -/
structure Places (α : Type) where
  /-- The items of each fingerprint with their places, the latest first. -/
  buckets : Std.TreeMap Nat (List (α × Nat)) := {}

namespace Places

variable {α : Type}

/-- No places. -/
def empty : Places α := {}

variable [Fingerprint α]

/-- The items that share the fingerprint of a key, with their places. -/
def near (p : Places α) (key : α) : List (α × Nat) := p.buckets.getD (Fingerprint.of key) []

/-- Adds an item at a place. -/
def add (p : Places α) (key : α) (place : Nat) : Places α :=
  ⟨p.buckets.insert (Fingerprint.of key) ((key, place) :: p.near key)⟩

/-- The places in a list that is given from its end. -/
def ofLatestFirst : List α → Places α
  | [] => empty
  | x :: rest => (ofLatestFirst rest).add x rest.length

/-- There is nothing near a key without places. -/
@[simp] theorem near_empty (key : α) : (empty : Places α).near key = [] :=
  Std.TreeMap.getD_emptyc

/-- Adding an item changes what is near the keys of its fingerprint. -/
theorem near_add (p : Places α) (x y : α) (n : Nat) :
    (p.add x n).near y
      = if Fingerprint.of x = Fingerprint.of y then (x, n) :: p.near y else p.near y := by
  simp only [near, add, Std.TreeMap.getD_insert, Std.LawfulEqCmp.compare_eq_iff_eq]
  split
  · rename_i h; rw [h]
  · rfl

variable [DecidableEq α]

/-- The place of an item. -/
def find? (p : Places α) (key : α) : Option Nat := (p.near key).lookup key

/-- Nothing is found without places. -/
@[simp] theorem find?_empty (key : α) : (empty : Places α).find? key = none := by simp [find?]

/-- The item that was added last is found there, the others where they were. -/
theorem find?_add (p : Places α) (x y : α) (n : Nat) :
    (p.add x n).find? y = if y = x then some n else p.find? y := by
  unfold find?
  rw [near_add]
  by_cases h : y = x
  · subst h; simp
  · split <;> simp [List.lookup_cons, beq_false_of_ne h]

/-- An item without a place is not in the list. -/
theorem find?_ofLatestFirst_eq_none {xs : List α} {x : α} :
    (ofLatestFirst xs).find? x = none ↔ x ∉ xs := by
  induction xs with
  | nil => simp [ofLatestFirst]
  | cons y ys ih =>
    rw [ofLatestFirst, find?_add]
    by_cases h : x = y <;> simp [h, ih]

/-- In a list without repetitions the place of an item is its index. -/
theorem find?_ofLatestFirst {xs : List α} (h : xs.Nodup) (x : α) :
    (ofLatestFirst xs).find? x = xs.reverse.idxOf? x := by
  induction xs with
  | nil => simp [ofLatestFirst]
  | cons y ys ih =>
    obtain ⟨hy, hs⟩ := List.nodup_cons.1 h
    rw [ofLatestFirst, find?_add, ih hs, List.reverse_cons]
    unfold List.idxOf?
    rw [List.findIdx?_append]
    by_cases hx : x = y
    · subst hx
      have hn : ys.reverse.findIdx? (· == x) = none :=
        List.idxOf?_eq_none_iff.2 (by simpa using hy)
      simp [hn]
    · simp [hx, Ne.symm hx]

end Places

end RelationalLP
