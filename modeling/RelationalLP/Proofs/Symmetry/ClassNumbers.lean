import Mathlib
import RelationalLP.Symmetry.Partition

/-! # Class numbers

Labels are numbered in order of first appearance, so the numbers in use are exactly those below the
number of classes. -/

namespace RelationalLP

variable {α : Type} [DecidableEq α] [Fingerprint α]

/-- Numbering keeps the length. -/
@[simp] theorem length_relabel (labels : List α) : (relabel labels).length = labels.length := by
  simp [relabel]

/-- A label is numbered by its place among the distinct labels. -/
theorem relabel_eq_map_idxOf (labels : List α) :
    relabel labels = labels.map fun l => (distinct labels).idxOf l := by
  refine List.map_congr_left fun l _ => ?_
  rw [OrderedIndex.numberOf_eq_idxOf, OrderedIndex.items_ofList]

/-- The count of labels is the number of distinct labels. -/
theorem labelCount_eq_length_distinct (labels : List ℕ) :
    labelCount labels = (distinct labels).length := by
  rw [labelCount, OrderedIndex.size_eq_length, OrderedIndex.items_ofList]

/-- The numbers of labels are those below the number of distinct labels. -/
theorem mem_relabel_iff {labels : List α} {k : ℕ} :
    k ∈ relabel labels ↔ k < (distinct labels).length := by
  rw [relabel_eq_map_idxOf, List.mem_map]
  constructor
  · rintro ⟨l, hl, rfl⟩
    exact List.idxOf_lt_length_iff.mpr (mem_distinct.mpr hl)
  · intro hk
    exact ⟨(distinct labels)[k], mem_distinct.mp (List.getElem_mem hk),
      (nodup_distinct labels).idxOf_getElem k hk⟩

/-- Numbering neither merges nor splits labels. -/
theorem labelCount_relabel (labels : List α) :
    labelCount (relabel labels) = (distinct labels).length := by
  have hperm : (distinct (relabel labels)).Perm (List.range (distinct labels).length) := by
    refine (List.perm_ext_iff_of_nodup (nodup_distinct _) List.nodup_range).mpr fun k => ?_
    rw [mem_distinct, mem_relabel_iff, List.mem_range]
  rw [labelCount_eq_length_distinct, hperm.length_eq, List.length_range]

/-- **The class numbers in use** are those below the number of classes. -/
theorem mem_relabel_iff_lt_labelCount {labels : List α} {k : ℕ} :
    k ∈ relabel labels ↔ k < labelCount (relabel labels) := by
  rw [mem_relabel_iff, labelCount_relabel]

/-- The class of a place is below the number of classes. -/
theorem getD_relabel_lt {labels : List α} {i : ℕ} (h : i < labels.length) :
    (relabel labels).getD i 0 < labelCount (relabel labels) := by
  rw [← length_relabel labels] at h
  rw [List.getD_eq_getElem _ _ h, ← mem_relabel_iff_lt_labelCount]
  exact List.getElem_mem h

/-- Colours of nodes agree as they do in the list. -/
theorem getD_eq_iff {colors : List ℕ} {u v : ℕ} (hu : u < colors.length) (hv : v < colors.length) :
    colors.getD u 0 = colors.getD v 0 ↔ colors[u]? = colors[v]? := by
  simp [hu, hv]

end RelationalLP
