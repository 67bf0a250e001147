import RelationalLP.Collections.Distinct
import RelationalLP.Collections.Places

/-! # Ordered indices

Keys numbered in the order in which they were first seen. An index is read through its `items`; the
main statements say what each operation does to this view. -/

namespace RelationalLP

/-- Distinct keys; the number of a key is its place among them. -/
structure OrderedIndex (α : Type) [Fingerprint α] where
  /-- The keys, the latest first. -/
  latestFirst : List α
  /-- The number of keys. -/
  size : Nat
  /-- The numbers of the keys. -/
  places : Places α
  /-- No key has two numbers. -/
  nodup : latestFirst.Nodup
  /-- Every key is counted. -/
  size_eq : size = latestFirst.length
  /-- A search gives the place of a key. -/
  places_eq : places = .ofLatestFirst latestFirst

namespace OrderedIndex

variable {α : Type} [Fingerprint α]

/-- The keys in order. -/
def items (i : OrderedIndex α) : List α := i.latestFirst.reverse

/-- The index without keys. -/
def empty : OrderedIndex α := ⟨[], 0, .empty, List.nodup_nil, rfl, rfl⟩

instance : Inhabited (OrderedIndex α) := ⟨empty⟩

/-- The number of keys of some indices together. -/
def totalSize : List (OrderedIndex α) → Nat
  | [] => 0
  | i :: rest => i.size + totalSize rest

/-- A key is one of the items when it is in the list that starts with the latest. -/
theorem mem_items {i : OrderedIndex α} {key : α} : key ∈ i.items ↔ key ∈ i.latestFirst :=
  List.mem_reverse

/-- The keys do not repeat. -/
theorem nodup_items (i : OrderedIndex α) : i.items.Nodup :=
  (List.reverse_perm i.latestFirst).nodup_iff.2 i.nodup

/-- The size counts the keys. -/
theorem size_eq_length (i : OrderedIndex α) : i.size = i.items.length := by
  rw [items, List.length_reverse, i.size_eq]

/-- Indices with the same keys in the same order are equal. -/
theorem ext_items {i j : OrderedIndex α} (h : i.items = j.items) : i = j := by
  obtain ⟨xs, _, _, _, rfl, rfl⟩ := i
  obtain ⟨ys, _, _, _, rfl, rfl⟩ := j
  obtain rfl : xs = ys := List.reverse_inj.1 h
  rfl

@[simp] theorem items_empty : (empty : OrderedIndex α).items = [] := rfl

variable [DecidableEq α]

/-- The number of a key. -/
def get? (i : OrderedIndex α) (key : α) : Option Nat := i.places.find? key

/-- The number that a key has once it is added. -/
def numberOf (i : OrderedIndex α) (key : α) : Nat := (i.get? key).getD i.size

/-- A key without a number is new. -/
theorem get?_eq_none {i : OrderedIndex α} {key : α} : i.get? key = none ↔ key ∉ i.items := by
  rw [get?, i.places_eq, Places.find?_ofLatestFirst_eq_none, mem_items]

/-- Adds a key that is not there yet. -/
def insert (i : OrderedIndex α) (key : α) : OrderedIndex α :=
  match h : i.get? key with
  | some _ => i
  | none =>
    { latestFirst := key :: i.latestFirst
      size := i.size + 1
      places := i.places.add key i.size
      nodup := List.nodup_cons.2 ⟨fun hk => get?_eq_none.1 h (mem_items.2 hk), i.nodup⟩
      size_eq := by rw [i.size_eq, List.length_cons]
      places_eq := by rw [i.places_eq, i.size_eq, Places.ofLatestFirst] }

/-- Numbers the keys of a list; of a repeated key the first occurrence counts. -/
def ofList (keys : List α) : OrderedIndex α := keys.foldl insert empty

/-- A new key comes last, a known one changes nothing. -/
@[simp] theorem items_insert (i : OrderedIndex α) (key : α) :
    (i.insert key).items = insertNew i.items key := by
  unfold insert insertNew
  split
  · rename_i n h
    rw [if_pos]
    refine Decidable.byContradiction fun hn => ?_
    rw [get?_eq_none.2 hn] at h
    exact nomatch h
  · rename_i h
    rw [if_neg (get?_eq_none.1 h)]
    exact List.reverse_cons

/-- Inserting keys one after another adds the new ones in order. -/
theorem items_foldl_insert (i : OrderedIndex α) (keys : List α) :
    (keys.foldl insert i).items = keys.foldl insertNew i.items := by
  induction keys generalizing i with
  | nil => rfl
  | cons k ks ih => rw [List.foldl_cons, ih, items_insert, List.foldl_cons]

/-- The index of a list has its distinct keys. -/
@[simp] theorem items_ofList (keys : List α) : (ofList keys).items = distinct keys :=
  items_foldl_insert empty keys

/-- The number of a key is its index among the keys. -/
theorem get?_eq_idxOf? (i : OrderedIndex α) (key : α) : i.get? key = i.items.idxOf? key := by
  rw [get?, i.places_eq, Places.find?_ofLatestFirst i.nodup, items]

/-- A new key gets the number after the last one. -/
theorem numberOf_eq_idxOf (i : OrderedIndex α) (key : α) : i.numberOf key = i.items.idxOf key := by
  rw [numberOf, get?_eq_idxOf?, size_eq_length]
  cases h : i.items.idxOf? key with
  | none => rw [List.idxOf_eq_length (List.idxOf?_eq_none_iff.1 h), Option.getD_none]
  | some n =>
    obtain ⟨hn, hk, -⟩ := List.idxOf?_eq_some_iff.1 h
    rw [← hk, i.nodup_items.idxOf_getElem n hn, Option.getD_some]

end OrderedIndex

end RelationalLP
