/-! # Distinct items in order of first appearance

Lists used as insertion-ordered sets: `insertNew` appends an item unless it is there already, and
`distinct` keeps the first occurrence of every item. -/

namespace RelationalLP

variable {α : Type} [DecidableEq α]

/-- Appends an item that is not in the list yet. -/
def insertNew (xs : List α) (x : α) : List α := if x ∈ xs then xs else xs ++ [x]

/-- The items of a list, each once, in order of first appearance. -/
def distinct (xs : List α) : List α := xs.foldl insertNew []

/-- Inserting an item adds that item and no other. -/
@[simp] theorem mem_insertNew {xs : List α} {x y : α} :
    y ∈ insertNew xs x ↔ y ∈ xs ∨ y = x := by
  unfold insertNew
  split
  · constructor
    · exact .inl
    · rintro (h | rfl) <;> assumption
  · simp

/-- Inserting keeps a list free of repetitions. -/
theorem nodup_insertNew {xs : List α} (h : xs.Nodup) (x : α) : (insertNew xs x).Nodup := by
  unfold insertNew
  split
  · exact h
  · rename_i hx
    rw [List.nodup_append]
    refine ⟨h, by simp, ?_⟩
    intro a ha b hb
    rw [List.mem_singleton] at hb
    subst hb
    exact fun e => hx (e ▸ ha)

/-- Inserting one item after another adds exactly those items. -/
theorem mem_foldl_insertNew {acc xs : List α} {y : α} :
    y ∈ xs.foldl insertNew acc ↔ y ∈ acc ∨ y ∈ xs := by
  induction xs generalizing acc with
  | nil => simp
  | cons x xs ih => simp [ih, or_assoc]

/-- Inserting one item after another keeps a list free of repetitions. -/
theorem nodup_foldl_insertNew {acc : List α} (h : acc.Nodup) (xs : List α) :
    (xs.foldl insertNew acc).Nodup := by
  induction xs generalizing acc with
  | nil => exact h
  | cons x xs ih => exact ih (nodup_insertNew h x)

/-- The distinct items of a list are its items. -/
@[simp] theorem mem_distinct {xs : List α} {y : α} : y ∈ distinct xs ↔ y ∈ xs := by
  simp [distinct, mem_foldl_insertNew]

/-- The distinct items of a list do not repeat. -/
theorem nodup_distinct (xs : List α) : (distinct xs).Nodup :=
  nodup_foldl_insertNew List.nodup_nil xs

end RelationalLP
