import Mathlib
import RelationalLP.Proofs.Expr.FreshNames
import RelationalLP.Proofs.Logic.Kleene
import RelationalLP.Proofs.Logic.Variables

/-! # Bound symbols

The symbols of queries that are conjoined, and of summands whose bound symbols are renamed: renaming
gives other names to bound symbols that clash, keeps the free symbols, and keeps different symbols
apart. -/

namespace RelationalLP

variable {K : Type}

/-! ### Conjoined queries -/

namespace Query

variable [Scalar K] {q r : Query K}

theorem mem_symbols_conjoin {x : Symbol} :
    x ∈ (q.conjoin r).symbols ↔ x ∈ q.symbols ∨ x ∈ r.symbols :=
  mem_distinct.trans List.mem_append

/-- Queries without a common symbol have all their symbols together. -/
theorem symbols_conjoin (h : ∀ x ∈ r.symbols, x ∉ q.symbols) :
    (q.conjoin r).symbols = q.symbols ++ r.symbols := by
  refine distinct_of_nodup (List.nodup_append.mpr ⟨q.nodup, r.nodup, fun x hx y hy heq => ?_⟩)
  rw [heq] at hx
  exact h y hy hx

/-- A conjoined formula has no terms but those of both sides. -/
theorem mem_terms_of_conjoin {t : Term K} (h : t ∈ (q.conjoin r).formula.terms) :
    t ∈ q.formula.terms ∨ t ∈ r.formula.terms := by
  have hmem := Formula.mem_terms_of_simplify (.conj [q.formula, r.formula]) h
  simpa only [Formula.terms, Formula.termsList, List.append_nil, List.mem_append] using hmem

/-- It has no variables but those of both sides. -/
theorem mem_occurrences_of_conjoin {x : Symbol} (h : x ∈ (q.conjoin r).formula.occurrences) :
    x ∈ q.formula.occurrences ∨ x ∈ r.formula.occurrences := by
  rw [Formula.mem_occurrences_iff] at h
  rw [Formula.mem_occurrences_iff, Formula.mem_occurrences_iff]
  exact mem_terms_of_conjoin h

/-- It has the truth value of both sides together. -/
theorem kleene_conjoin {v : Valuation K} {truthOf : Atom K → Bool} {x : Bool}
    (h : Connective.conj.combine [q.formula.kleene v truthOf, r.formula.kleene v truthOf]
      = some x) : (q.conjoin r).formula.kleene v truthOf = some x :=
  Formula.kleene_simplify (.conj [q.formula, r.formula]) x h

end Query

/-! ### Renamings that change nothing -/

theorem Term.rename_nil (t : Term K) : t.rename [] = t := by
  cases t <;> rfl

theorem Atom.rename_nil (a : Atom K) : a.rename [] = a := by
  rw [rename, List.map_congr_left fun t _ => t.rename_nil, List.map_id']

theorem Comparison.rename_nil (c : Comparison K) : c.rename [] = c := by
  rw [rename, Term.rename_nil, Term.rename_nil]

mutual

theorem Formula.rename_nil : (f : Formula K) → f.rename [] = f
  | .truth => rfl
  | .falsity => rfl
  | .atom a => congrArg _ a.rename_nil
  | .compare c => congrArg _ c.rename_nil
  | .neg f => congrArg _ f.rename_nil
  | .conj fs => congrArg _ (Formula.renameList_nil fs)
  | .disj fs => congrArg _ (Formula.renameList_nil fs)

theorem Formula.renameList_nil : (fs : List (Formula K)) → Formula.renameList [] fs = fs
  | [] => rfl
  | f :: fs => congrArg₂ List.cons f.rename_nil (Formula.renameList_nil fs)

end

theorem Query.rename_nil (q : Query K) : q.rename [] = q := by
  obtain ⟨symbols, formula, nodup⟩ := q
  simp only [rename, ofSymbols, Formula.rename_nil, Query.mk.injEq, and_true]
  rw [List.map_congr_left fun s _ => Renaming.apply_nil s, List.map_id', distinct_of_nodup nodup]

theorem Factor.rename_nil (f : Factor K) : f.rename [] = f := by
  cases f with
  | atom a => exact congrArg Factor.atom a.rename_nil
  | symbol s => rfl

theorem Factor.vars_rename (r : Renaming) (f : Factor K) :
    (f.rename r).vars = f.vars.map r.apply := by
  cases f with
  | atom a => exact a.vars_rename r
  | symbol s => rfl

/-- Renaming keeps decision variables. -/
theorem Factor.isSome_decision?_rename (r : Renaming) (f : Factor K) :
    (f.rename r).decision?.isSome = f.decision?.isSome := by
  cases f with
  | symbol s => rfl
  | atom a =>
    have hkind : (a.rename r).isDecision = a.isDecision := rfl
    rw [rename, decision?, decision?, hkind]
    cases a.isDecision with
    | true => rfl
    | false => rfl

namespace Summand

variable {s s' : Summand K}

/-! ### Symbols of summands -/

theorem mem_vars {x : Symbol} : x ∈ s.vars ↔ x ∈ s.bound
    ∨ (∃ q, s.query = some q ∧ x ∈ q.formula.occurrences) ∨ ∃ f ∈ s.factors, x ∈ f.vars := by
  rw [vars, mem_distinct, List.mem_append, List.mem_append, List.mem_flatMap, or_assoc]
  cases s.query with
  | none => simp
  | some q => simp [Formula.mem_vars]

theorem mem_freeVars {x : Symbol} : x ∈ s.freeVars ↔ x ∈ s.vars ∧ x ∉ s.bound := by
  rw [freeVars, List.mem_filter, decide_eq_true_eq]

/-! ### Renaming bound symbols -/

/-- The bound symbols of a summand do not repeat. -/
theorem nodup_bound (s : Summand K) : s.bound.Nodup := by
  rw [bound]
  cases s.query with
  | none => exact List.nodup_nil
  | some q => exact q.nodup

/-- **A renamed summand**: the bound symbols have other names, which no other symbol of the summand
bears. -/
structure Renamed (r : Renaming) (s s' : Summand K) : Prop where
  /-- Only bound symbols are renamed. -/
  fixes : ∀ x ∉ s.bound, r.apply x = x
  /-- Different symbols have different names. -/
  inj : ∀ x ∈ s.vars, ∀ y ∈ s.vars, r.apply x = r.apply y → x = y
  /-- The query is renamed. -/
  query_eq : s'.query = s.query.map (Query.rename r)
  /-- The coefficient stays. -/
  coefficient_eq : s'.coefficient = s.coefficient
  /-- The factors are renamed. -/
  factors_eq : s'.factors = s.factors.map (Factor.rename r)

theorem bound_subset_vars {s : Summand K} {x : Symbol} (h : x ∈ s.bound) : x ∈ s.vars :=
  mem_vars.mpr (.inl h)

/-- The renamed query binds the new names. -/
theorem symbols_rename {q : Query K} {r : Renaming}
    (h : ∀ x ∈ q.symbols, ∀ y ∈ q.symbols, r.apply x = r.apply y → x = y) :
    (q.rename r).symbols = q.symbols.map r.apply :=
  distinct_of_nodup (q.nodup.map_on h)

namespace Renamed

variable {r : Renaming}

/-- The bound symbols have their new names. -/
theorem bound_eq (h : Renamed r s s') : s'.bound = s.bound.map r.apply := by
  have hinj := h.inj
  rw [bound, h.query_eq]
  cases hq : s.query with
  | none => rw [bound, hq]; rfl
  | some q =>
    have hbound : s.bound = q.symbols := by rw [bound, hq]; rfl
    rw [hbound]
    refine symbols_rename fun x hx y hy => hinj x ?_ y ?_
    · exact bound_subset_vars (hbound ▸ hx)
    · exact bound_subset_vars (hbound ▸ hy)

/-- The symbols have their new names. -/
theorem mem_vars_iff (h : Renamed r s s') (x : Symbol) :
    x ∈ s'.vars ↔ ∃ y ∈ s.vars, r.apply y = x := by
  have hquery : (∃ q, s'.query = some q ∧ x ∈ q.formula.occurrences)
      ↔ ∃ y, (∃ q, s.query = some q ∧ y ∈ q.formula.occurrences) ∧ r.apply y = x := by
    rw [h.query_eq]
    cases s.query with
    | none => simp
    | some q =>
      simp only [Option.map_some, Option.some.injEq, exists_eq_left']
      rw [Query.rename, Query.ofSymbols, Formula.occurrences_rename, List.mem_map]
  have hfactors : (∃ f ∈ s'.factors, x ∈ f.vars)
      ↔ ∃ y, (∃ f ∈ s.factors, y ∈ f.vars) ∧ r.apply y = x := by
    rw [h.factors_eq]
    constructor
    · rintro ⟨f', hf', hx⟩
      obtain ⟨f, hf, rfl⟩ := List.mem_map.mp hf'
      rw [Factor.vars_rename, List.mem_map] at hx
      obtain ⟨y, hy, rfl⟩ := hx
      exact ⟨y, ⟨f, hf, hy⟩, rfl⟩
    · rintro ⟨y, ⟨f, hf, hy⟩, rfl⟩
      exact ⟨_, List.mem_map_of_mem hf, by rw [Factor.vars_rename]; exact List.mem_map_of_mem hy⟩
  rw [mem_vars, h.bound_eq, List.mem_map, hquery, hfactors]
  simp only [mem_vars, or_and_right, exists_or]

/-- Renaming bound symbols keeps the free ones. -/
theorem mem_freeVars_iff (h : Renamed r s s') (x : Symbol) : x ∈ s'.freeVars ↔ x ∈ s.freeVars := by
  rw [mem_freeVars, mem_freeVars, h.mem_vars_iff, h.bound_eq]
  constructor
  · rintro ⟨⟨y, hy, rfl⟩, hb⟩
    have hyb : y ∉ s.bound := fun hmem => hb (List.mem_map_of_mem hmem)
    rw [h.fixes y hyb]
    exact ⟨hy, hyb⟩
  · rintro ⟨hx, hb⟩
    refine ⟨⟨x, hx, h.fixes x hb⟩, fun hmem => ?_⟩
    obtain ⟨y, hy, heq⟩ := List.mem_map.mp hmem
    have hxy := h.inj y (bound_subset_vars hy) x hx (heq.trans (h.fixes x hb).symm)
    exact hb (hxy ▸ hy)

end Renamed

/-- The renaming that `renameBound` uses. -/
def boundNames (clashes taken : List Symbol) (s : Summand K) : Renaming :=
  freshNames (s.vars ++ clashes ++ taken) (s.bound.filter (· ∈ clashes))

variable {clashes taken : List Symbol}

theorem mem_fst_boundNames {x : Symbol} :
    x ∈ (s.boundNames clashes taken).map Prod.fst ↔ x ∈ s.bound ∧ x ∈ clashes := by
  rw [boundNames, map_fst_freshNames, List.mem_filter, decide_eq_true_eq]

/-- A bound symbol keeps its name where nothing clashes, and otherwise gets a fresh one. -/
theorem apply_boundNames_cases {x : Symbol} (hx : x ∈ s.bound) :
    x ∉ clashes ∧ (s.boundNames clashes taken).apply x = x
      ∨ (s.boundNames clashes taken).apply x ∉ s.vars ++ clashes ++ taken := by
  by_cases hc : x ∈ clashes
  · right
    have hfst : x ∈ (s.boundNames clashes taken).map Prod.fst := mem_fst_boundNames.mpr ⟨hx, hc⟩
    exact notMem_used_of_mem_freshNames (List.mem_map_of_mem (Renaming.mem_apply hfst))
  · left
    exact ⟨hc, Renaming.apply_of_notMem fun h => hc (mem_fst_boundNames.mp h).2⟩

theorem apply_boundNames_injOn {x y : Symbol} (hx : x ∈ s.vars) (hy : y ∈ s.vars)
    (heq : (s.boundNames clashes taken).apply x = (s.boundNames clashes taken).apply y) :
    x = y := by
  have hfresh : ∀ z ∈ (s.boundNames clashes taken).map Prod.fst,
      (s.boundNames clashes taken).apply z ∉ s.vars := by
    intro z hz hmem
    refine notMem_used_of_mem_freshNames (List.mem_map_of_mem (Renaming.mem_apply hz)) ?_
    exact List.mem_append_left _ (List.mem_append_left _ hmem)
  by_cases hxr : x ∈ (s.boundNames clashes taken).map Prod.fst
  · by_cases hyr : y ∈ (s.boundNames clashes taken).map Prod.fst
    · exact Renaming.apply_injOn (nodup_freshNames _ _) hxr hyr heq
    · rw [Renaming.apply_of_notMem hyr] at heq
      exact absurd (heq ▸ hy) (hfresh x hxr)
  · rw [Renaming.apply_of_notMem hxr] at heq
    by_cases hyr : y ∈ (s.boundNames clashes taken).map Prod.fst
    · exact absurd (heq ▸ hx) (hfresh y hyr)
    · rwa [Renaming.apply_of_notMem hyr] at heq

variable [Scalar K]

/-- Renaming bound symbols puts the new names throughout. -/
theorem renameBound_eq (clashes taken : List Symbol) (s : Summand K) :
    s.renameBound clashes taken
      = ⟨s.query.map (Query.rename (s.boundNames clashes taken)), s.coefficient,
          s.factors.map (Factor.rename (s.boundNames clashes taken))⟩ := by
  have hnil : s.boundNames clashes taken = [] → s
      = ⟨s.query.map (Query.rename (s.boundNames clashes taken)), s.coefficient,
          s.factors.map (Factor.rename (s.boundNames clashes taken))⟩ := by
    intro h
    rw [h, List.map_congr_left fun f _ => f.rename_nil, List.map_id']
    cases hq : s.query with
    | none => rw [Option.map_none, ← hq]
    | some q => rw [Option.map_some, q.rename_nil, ← hq]
  rw [renameBound]
  cases hq : s.query with
  | none =>
    -- without a query nothing is bound
    have hb : s.boundNames clashes taken = [] := by
      rw [boundNames, bound, hq]
      rfl
    exact (hnil hb).trans (by rw [hq])
  | some q =>
    have hb : freshNames (s.vars ++ clashes ++ taken) (q.symbols.filter (· ∈ clashes))
        = s.boundNames clashes taken := by
      rw [boundNames, bound, hq]
      rfl
    simp only [hb]
    split
    · -- nothing clashes, so the summand is returned as it is
      rename_i hempty
      exact (hnil (List.isEmpty_iff.mp hempty)).trans (by rw [hq])
    · rfl

/-- **Renaming bound symbols renames the summand.** -/
theorem renamed_renameBound (clashes taken : List Symbol) (s : Summand K) :
    Renamed (s.boundNames clashes taken) s (s.renameBound clashes taken) := by
  have hfixes : ∀ x ∉ s.bound, (s.boundNames clashes taken).apply x = x := fun x hx =>
    Renaming.apply_of_notMem fun h => hx (mem_fst_boundNames.mp h).1
  have hinj : ∀ x ∈ s.vars, ∀ y ∈ s.vars,
      (s.boundNames clashes taken).apply x = (s.boundNames clashes taken).apply y → x = y :=
    fun x hx y hy => apply_boundNames_injOn hx hy
  have heq := renameBound_eq clashes taken s
  exact ⟨hfixes, hinj, by rw [heq], by rw [heq], by rw [heq]⟩

/-- Renaming bound symbols keeps them out of the clashes. -/
theorem notMem_of_mem_bound_renameBound {clashes taken : List Symbol} {x : Symbol}
    (hx : x ∈ (s.renameBound clashes taken).bound) : x ∉ clashes := by
  rw [(renamed_renameBound clashes taken s).bound_eq] at hx
  obtain ⟨y, hy, rfl⟩ := List.mem_map.mp hx
  have hcases : _ ∨ (s.boundNames clashes taken).apply y ∉ _ := apply_boundNames_cases hy
  rcases hcases with ⟨hc, heq⟩ | hfresh
  · rwa [heq]
  · exact fun hmem => hfresh (List.mem_append_left _ (List.mem_append_right _ hmem))

/-- Renaming bound symbols brings in no taken name. -/
theorem mem_bound_of_mem_taken {clashes taken : List Symbol} {x : Symbol}
    (hx : x ∈ (s.renameBound clashes taken).bound) (ht : x ∈ taken) : x ∈ s.bound := by
  rw [(renamed_renameBound clashes taken s).bound_eq] at hx
  obtain ⟨y, hy, rfl⟩ := List.mem_map.mp hx
  have hcases : _ ∨ (s.boundNames clashes taken).apply y ∉ _ := apply_boundNames_cases hy
  rcases hcases with ⟨-, heq⟩ | hfresh
  · rwa [heq]
  · exact absurd (List.mem_append_right _ ht) hfresh

end Summand

end RelationalLP
