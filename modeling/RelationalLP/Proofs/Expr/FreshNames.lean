import Mathlib
import RelationalLP.Expr.Summand

/-! # Fresh names

Renaming the bound symbols of a summand gives each clashing one a name that nothing else bears: among
one more variant than used names one is free. The renaming is the identity elsewhere, and no two symbols
of the summand get the same name. -/

namespace RelationalLP

/-- Items that are new and not repeated are added one after another. -/
theorem foldl_insertNew_of_nodup {α : Type} [DecidableEq α] {acc xs : List α}
    (h : (acc ++ xs).Nodup) : xs.foldl insertNew acc = acc ++ xs := by
  induction xs generalizing acc with
  | nil => rw [List.foldl_nil, List.append_nil]
  | cons x xs ih =>
    have hx : x ∉ acc := fun hmem => (List.nodup_append.mp h).2.2 x hmem x List.mem_cons_self rfl
    rw [List.foldl_cons, insertNew, if_neg hx, ih (by simpa using h), List.append_assoc]
    rfl

/-- A list without repetitions is its distinct items. -/
theorem distinct_of_nodup {α : Type} [DecidableEq α] {xs : List α} (h : xs.Nodup) :
    distinct xs = xs :=
  foldl_insertNew_of_nodup (show ([] ++ xs).Nodup from h)

/-! ### Renamings -/

namespace Renaming

/-- A renaming without a word on a symbol leaves it. -/
theorem apply_of_notMem {r : Renaming} {s : Symbol} (h : s ∉ r.map Prod.fst) : r.apply s = s := by
  have hnone : r.lookup s = none := by
    rw [List.lookup_eq_none_iff]
    intro p hp
    exact bne_iff_ne.mpr fun heq => h (List.mem_map.mpr ⟨p, hp, heq.symm⟩)
  rw [apply, hnone, Option.getD_none]

/-- The new name of a symbol stands beside it. -/
theorem mem_apply {r : Renaming} {s : Symbol} (h : s ∈ r.map Prod.fst) : (s, r.apply s) ∈ r := by
  induction r with
  | nil => exact nomatch h
  | cons p r ih =>
    obtain ⟨x, y⟩ := p
    rw [apply, List.lookup_cons]
    by_cases hs : s = x
    · rw [hs, beq_self_eq_true]
      exact List.mem_cons_self
    · rw [beq_false_of_ne hs]
      rw [List.map_cons, List.mem_cons] at h
      exact List.mem_cons_of_mem _ (ih (h.resolve_left hs))

/-- A renaming to different names keeps different symbols apart. -/
theorem apply_injOn {r : Renaming} (h : (r.map Prod.snd).Nodup) {s t : Symbol}
    (hs : s ∈ r.map Prod.fst) (ht : t ∈ r.map Prod.fst) (heq : r.apply s = r.apply t) : s = t := by
  have hmem := mem_apply hs
  rw [heq] at hmem
  exact congrArg Prod.fst (List.inj_on_of_nodup_map h hmem (mem_apply ht) rfl)

theorem apply_nil (s : Symbol) : Renaming.apply [] s = s := rfl

end Renaming

namespace Summand

/-! ### Variants -/

/-- The variants of a symbol differ. -/
theorem variant_inj {s : Symbol} {m n : ℕ} (h : variant s m = variant s n) : m = n := by
  rw [variant, variant, Symbol.mk.injEq] at h
  exact Nat.repr_inj.mp (String.append_right_inj _ |>.mp h)

/-- **A fresh symbol is the first variant that is not used**; the search ends, since there are more variants
than used symbols. -/
theorem exists_fresh_eq (used : List Symbol) (s : Symbol) :
    ∃ n, fresh used s = variant s (n + 1) ∧ variant s (n + 1) ∉ used
      ∧ ∀ m < n, variant s (m + 1) ∈ used := by
  rw [fresh, List.find?_map]
  cases hfind : (List.range (used.length + 1)).find?
      ((fun x => decide (x ∉ used)) ∘ fun n => variant s (n + 1)) with
  | some n =>
    obtain ⟨hn, -, hbefore⟩ := List.find?_range_eq_some.mp hfind
    exact ⟨n, rfl, by simpa using hn, fun m hm => by simpa using hbefore m hm⟩
  | none =>
    -- one more variant than used symbols cannot all be used
    have hsub : ((List.range (used.length + 1)).map fun n => variant s (n + 1)) ⊆ used := by
      rintro _ hx
      obtain ⟨n, hn, rfl⟩ := List.mem_map.mp hx
      simpa using List.find?_eq_none.mp hfind n hn
    have hnodup : ((List.range (used.length + 1)).map fun n => variant s (n + 1)).Nodup :=
      List.nodup_range.map fun m n h => Nat.succ_injective (variant_inj h)
    have hlen := (hnodup.subperm hsub).length_le
    simp at hlen

/-- A fresh symbol is not used. -/
theorem fresh_notMem (used : List Symbol) (s : Symbol) : fresh used s ∉ used := by
  obtain ⟨n, heq, hn, -⟩ := exists_fresh_eq used s
  rwa [heq]

theorem map_fst_freshNames (used symbols : List Symbol) :
    (freshNames used symbols).map Prod.fst = symbols := by
  induction symbols generalizing used with
  | nil => rfl
  | cons s symbols ih => rw [freshNames, List.map_cons, ih]

/-- A new name is a fresh one for some used symbols. -/
theorem exists_fresh_of_mem_freshNames {used symbols : List Symbol} {x y : Symbol}
    (h : (x, y) ∈ freshNames used symbols) : ∃ used', y = fresh used' x := by
  induction symbols generalizing used with
  | nil => exact absurd h List.not_mem_nil
  | cons z symbols ih =>
    rw [freshNames, List.mem_cons] at h
    rcases h with h | h
    · rw [Prod.mk.injEq] at h
      exact ⟨used, by rw [h.1, h.2]⟩
    · exact ih h

/-- Fresh names are not used. -/
theorem notMem_used_of_mem_freshNames {used symbols : List Symbol} {x : Symbol}
    (h : x ∈ (freshNames used symbols).map Prod.snd) : x ∉ used := by
  induction symbols generalizing used with
  | nil => exact nomatch h
  | cons s symbols ih =>
    rw [freshNames, List.map_cons, List.mem_cons] at h
    rcases h with rfl | h
    · exact fresh_notMem used s
    · exact fun hx => ih h (List.mem_cons_of_mem _ hx)

/-- Fresh names differ from each other. -/
theorem nodup_freshNames (used symbols : List Symbol) :
    ((freshNames used symbols).map Prod.snd).Nodup := by
  induction symbols generalizing used with
  | nil => exact List.nodup_nil
  | cons s symbols ih =>
    rw [freshNames, List.map_cons, List.nodup_cons]
    exact ⟨fun h => notMem_used_of_mem_freshNames h List.mem_cons_self, ih _⟩

end Summand

end RelationalLP
