import Mathlib
import RelationalLP.Proofs.Logic.Terms

/-! # Variables

Where the variables of formulas come from: renaming renames them, substitution takes away the bound
ones, and simplification brings none in. -/

namespace RelationalLP

variable {K : Type}

/-! ### Renaming -/

theorem Term.symbol?_rename (r : Renaming) (t : Term K) :
    (t.rename r).symbol? = t.symbol?.map r.apply := by
  cases t <;> rfl

theorem filterMap_symbol?_rename (r : Renaming) (ts : List (Term K)) :
    (ts.map (Term.rename r)).filterMap Term.symbol?
      = (ts.filterMap Term.symbol?).map r.apply := by
  rw [List.filterMap_map, List.map_filterMap]
  exact List.filterMap_congr fun t _ => t.symbol?_rename r

theorem Atom.vars_rename (r : Renaming) (a : Atom K) :
    (a.rename r).vars = a.vars.map r.apply :=
  filterMap_symbol?_rename r a.arguments

theorem Formula.occurrences_rename (r : Renaming) (f : Formula K) :
    (f.rename r).occurrences = f.occurrences.map r.apply := by
  rw [occurrences_eq_filterMap, terms_rename, filterMap_symbol?_rename, occurrences_eq_filterMap]

theorem Formula.mem_vars {f : Formula K} {s : Symbol} : s ∈ f.vars ↔ s ∈ f.occurrences :=
  mem_distinct

/-! ### Substitution -/

theorem Term.symbol?_substitute (b : Binding K) (t : Term K) (s : Symbol) :
    (t.substitute b).symbol? = some s ↔ t.symbol? = some s ∧ b.get? s = none := by
  cases t with
  | const c => simp [substitute, symbol?]
  | var x =>
    rw [substitute]
    cases hx : b.get? x with
    | some c =>
      refine iff_of_false (by simp [symbol?]) ?_
      rintro ⟨hs, hb⟩
      rw [← Option.some.inj hs, hx] at hb
      cases hb
    | none =>
      constructor
      · intro hs
        rw [← Option.some.inj hs]
        exact ⟨rfl, hx⟩
      · rintro ⟨hs, -⟩
        exact hs

/-- **Substitution takes away the bound variables.** -/
theorem Formula.mem_occurrences_substitute {b : Binding K} {s : Symbol} (f : Formula K) :
    s ∈ (f.substitute b).occurrences ↔ s ∈ f.occurrences ∧ b.get? s = none := by
  rw [occurrences_eq_filterMap, occurrences_eq_filterMap, terms_substitute, List.mem_filterMap,
    List.mem_filterMap]
  constructor
  · rintro ⟨u, hu, hs⟩
    obtain ⟨t, ht, rfl⟩ := List.mem_map.mp hu
    obtain ⟨hsym, hb⟩ := (t.symbol?_substitute b s).mp hs
    exact ⟨⟨t, ht, hsym⟩, hb⟩
  · rintro ⟨⟨t, ht, hsym⟩, hb⟩
    exact ⟨_, List.mem_map_of_mem ht, (t.symbol?_substitute b s).mpr ⟨hsym, hb⟩⟩

/-! ### Simplification -/

/-- **Simplification brings no variables in.** -/
theorem Formula.mem_occurrences_of_simplify [Scalar K] {s : Symbol} (f : Formula K)
    (h : s ∈ f.simplify.occurrences) : s ∈ f.occurrences := by
  rw [mem_occurrences_iff] at h ⊢
  exact mem_terms_of_simplify f h

end RelationalLP
