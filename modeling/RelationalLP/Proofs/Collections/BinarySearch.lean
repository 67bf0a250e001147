import Mathlib
import RelationalLP.Collections.BinarySearch

/-! # What binary search finds

In a list that is sorted for a search, what is found stands at the place that is sought; where nothing is
found, the index splits the list into the items before that place and those after it. A partition point
splits a list into the items that pass the test and those that do not. -/

namespace RelationalLP

namespace BinarySearch

variable {α : Type} {order : α → Ordering} {items : List α}

/-- **Sorted for a search**: items before the place that is sought come first, items after it last. -/
def SortedFor (order : α → Ordering) (items : List α) : Prop :=
  items.Pairwise fun a b => (order b = .lt → order a = .lt) ∧ (order a = .gt → order b = .gt)

/-- What stands behind an item after the place is after the place as well. -/
theorem SortedFor.gt_of_le (h : SortedFor order items) {i j : ℕ} {a b : α} (hij : i ≤ j)
    (hi : items[i]? = some a) (hj : items[j]? = some b) (ha : order a = .gt) : order b = .gt := by
  obtain hlt | rfl := Nat.lt_or_eq_of_le hij
  · obtain ⟨hi', rfl⟩ := List.getElem?_eq_some_iff.mp hi
    obtain ⟨hj', rfl⟩ := List.getElem?_eq_some_iff.mp hj
    exact (List.pairwise_iff_getElem.mp h i j hi' hj' hlt).2 ha
  · rwa [← Option.some.inj (hi.symm.trans hj)]

/-- What stands in front of an item before the place is before the place as well. -/
theorem SortedFor.lt_of_le (h : SortedFor order items) {i j : ℕ} {a b : α} (hij : i ≤ j)
    (hi : items[i]? = some a) (hj : items[j]? = some b) (hb : order b = .lt) : order a = .lt := by
  obtain hlt | rfl := Nat.lt_or_eq_of_le hij
  · obtain ⟨hi', rfl⟩ := List.getElem?_eq_some_iff.mp hi
    obtain ⟨hj', rfl⟩ := List.getElem?_eq_some_iff.mp hj
    exact (List.pairwise_iff_getElem.mp h i j hi' hj' hlt).1 hb
  · rwa [Option.some.inj (hi.symm.trans hj)]

/-- **What narrowing keeps**: everything behind the range comes after the place that is sought, and the
range starts at the front or at an item that does not. -/
structure Bounds (order : α → Ordering) (items : List α) (base size : ℕ) : Prop where
  /-- The range is not empty. -/
  size_pos : 0 < size
  /-- It lies in the list. -/
  le_length : base + size ≤ items.length
  /-- Items behind it come after the place. -/
  gt_after : ∀ i a, base + size ≤ i → items[i]? = some a → order a = .gt
  /-- Its first item does not, unless it is the first of all. -/
  ne_gt_base : base = 0 ∨ ∃ a, items[base]? = some a ∧ order a ≠ .gt

/-- **One step of narrowing** keeps the bounds, whichever half is kept. -/
theorem Bounds.step (hs : SortedFor order items) {base size : ℕ} (h : Bounds order items base size)
    (hsize : ¬ size ≤ 1) :
    Bounds order items
      (if items[base + size / 2]?.map order = some .gt then base else base + size / 2)
      (size - size / 2) := by
  have hlength := h.le_length
  obtain ⟨m, hm⟩ : ∃ m, items[base + size / 2]? = some m :=
    ⟨_, List.getElem?_eq_getElem (by omega)⟩
  simp only [hm, Option.map_some, Option.some.injEq]
  split
  · rename_i hgt
    exact ⟨by omega, by omega, fun i a hi ha => hs.gt_of_le (by omega) hm ha hgt, h.ne_gt_base⟩
  · rename_i hgt
    exact ⟨by omega, by omega, fun i a hi ha => h.gt_after i a (by omega) ha, .inr ⟨m, hm, hgt⟩⟩

/-- **Narrowing ends** in a range of one item with the same bounds. -/
theorem Bounds.narrow (hs : SortedFor order items) {base size : ℕ} (h : Bounds order items base size) :
    Bounds order items (narrow order items base size) 1 := by
  fun_induction BinarySearch.narrow order items base size with
  | case1 base size hsize =>
    obtain rfl : size = 1 := Nat.le_antisymm hsize h.size_pos
    exact h
  | case2 base size hsize half middle ih => exact ih (h.step hs hsize)

/-- The search of a list that is not empty ends in a range of one item. -/
theorem bounds_narrow (hs : SortedFor order items) (hne : items ≠ []) :
    Bounds order items (narrow order items 0 items.length) 1 := by
  refine Bounds.narrow hs ⟨List.length_pos_iff.mpr hne, (Nat.zero_add _).le, fun i a hi ha => ?_, .inl rfl⟩
  rw [List.getElem?_eq_none (by omega)] at ha
  cases ha

/-- **What is found is what is sought.** -/
theorem exists_of_search_eq_ok {i : ℕ} (h : search order items = .ok i) :
    ∃ a, items[i]? = some a ∧ order a = .eq := by
  rw [search] at h
  split at h
  · rename_i heq
    obtain rfl := Except.ok.inj h
    exact Option.map_eq_some_iff.mp heq
  all_goals cases h

/-- **Where nothing is found** the index splits the list into the items before the place that is sought and
those after it. -/
theorem split_of_search_eq_error (hs : SortedFor order items) {i : ℕ}
    (h : search order items = .error i) :
    (∀ a ∈ items.take i, order a = .lt) ∧ ∀ a ∈ items.drop i, order a = .gt := by
  obtain rfl | hne := eq_or_ne items []
  · simp
  have hb := bounds_narrow hs hne
  -- the one item that is left decides on which side of it the list is split
  obtain ⟨m, hm⟩ : ∃ m, items[narrow order items 0 items.length]? = some m :=
    ⟨_, List.getElem?_eq_getElem (show _ < _ from hb.le_length)⟩
  rw [search, hm, Option.map_some] at h
  cases hcase : order m with
  | eq =>
    rw [hcase] at h
    cases h
  | lt =>
    rw [hcase] at h
    obtain rfl := Except.error.inj h
    refine ⟨fun a ha => ?_, fun a ha => ?_⟩
    · obtain ⟨j, hj, rfl⟩ := List.mem_take_iff_getElem.mp ha
      exact hs.lt_of_le (by omega) (List.getElem?_eq_getElem _) hm hcase
    · obtain ⟨j, hj, rfl⟩ := List.mem_drop_iff_getElem.mp ha
      exact hb.gt_after _ _ (by omega) (List.getElem?_eq_getElem _)
  | gt =>
    rw [hcase] at h
    obtain rfl := Except.error.inj h
    -- it is the first of all, since the range does not start at an item after the place
    have hzero : narrow order items 0 items.length = 0 :=
      hb.ne_gt_base.resolve_right fun ⟨a, ha, hgt⟩ =>
        hgt (Option.some.inj (hm.symm.trans ha) ▸ hcase)
    rw [hzero] at hm ⊢
    refine ⟨by simp, fun a ha => ?_⟩
    obtain ⟨j, hj, rfl⟩ := List.mem_drop_iff_getElem.mp ha
    exact hs.gt_of_le (Nat.zero_le _) hm (List.getElem?_eq_getElem _) hcase

/-- **What is in the list is found.** -/
theorem exists_search_eq_ok (hs : SortedFor order items) {a : α} (ha : a ∈ items) (h : order a = .eq) :
    ∃ i, search order items = .ok i := by
  cases hsearch : search order items with
  | ok i => exact ⟨i, rfl⟩
  | error i =>
    -- the item would stand before the place or after it
    obtain ⟨hbefore, hafter⟩ := split_of_search_eq_error hs hsearch
    rw [← List.take_append_drop i items] at ha
    rcases List.mem_append.mp ha with ha | ha
    · cases (hbefore a ha).symm.trans h
    · cases (hafter a ha).symm.trans h

/-- The search for something in the list ends at an item that stands at its place. -/
theorem exists_getElem?_place (hs : SortedFor order items) {a : α} (ha : a ∈ items)
    (h : order a = .eq) : ∃ b, items[place order items]? = some b ∧ order b = .eq := by
  obtain ⟨i, hi⟩ := exists_search_eq_ok hs ha h
  rw [place, hi]
  exact exists_of_search_eq_ok hi

/-- **A partition point splits a list**: without the items before it the list starts with the first item that
fails the test. -/
theorem drop_partitionPoint {test : α → Bool} (h : items.Pairwise fun a b => test b → test a) :
    items.drop (partitionPoint test items) = items.dropWhile test := by
  have hs : SortedFor (fun a => if test a then .lt else .gt) items := by
    refine h.imp fun {a b} hab => ⟨fun hb => ?_, fun ha => ?_⟩
    · have hb' : test b := by by_contra hne; simp [hne] at hb
      simp [hab hb']
    · have ha' : ¬ test a := fun hne => by simp [hne] at ha
      simp [mt hab ha']
  rw [partitionPoint, place]
  split
  · -- no item is at the place itself
    rename_i hfound
    obtain ⟨a, -, ha⟩ := exists_of_search_eq_ok hfound
    split at ha <;> cases ha
  · rename_i place hnone
    obtain ⟨hbefore, hafter⟩ := split_of_search_eq_error hs hnone
    conv_rhs => rw [← List.take_append_drop place items]
    rw [List.dropWhile_append_of_pos fun a ha => ?_, List.dropWhile_eq_self_iff.mpr fun hlength hpass => ?_]
    · have hlast := hafter _ (List.getElem_mem hlength)
      rw [if_pos hpass] at hlast
      cases hlast
    · by_contra hfail
      have hfirst := hbefore a ha
      rw [if_neg hfail] at hfirst
      cases hfirst

end BinarySearch

end RelationalLP
