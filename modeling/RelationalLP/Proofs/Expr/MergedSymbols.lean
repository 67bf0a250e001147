import Mathlib
import RelationalLP.Proofs.Expr.BoundSymbols

/-! # Symbols of merged summands

Merging two summands captures no symbol. The bound symbols of a product are those of its operands under
names that are free in neither, a summand under a query adds its bound symbols to those of the query under
names that the query does not mention, and no free symbol comes in. -/

namespace RelationalLP

variable {K : Type} [Scalar K]

namespace Summand

variable {s t u : Summand K}

/-! ### Merging -/

/-- A merged summand: both queries, both coefficients, the factors of both. -/
theorem merge_eq_ok (h : s.merge t = .ok u) :
    u = ⟨mergeQueries s.query t.query, s.coefficient * t.coefficient, s.factors ++ t.factors⟩ := by
  rw [merge] at h
  split at h
  · exact nomatch h
  · exact (Except.ok.inj h).symm

/-- Two summands are merged unless two decision variables would be multiplied. -/
theorem exists_merge_iff : (∃ u, s.merge t = .ok u)
    ↔ ((s.factors ++ t.factors).filter (·.decision?.isSome)).length ≤ 1 := by
  rw [merge]
  split
  · rename_i hmany
    exact iff_of_false nofun (not_le.mpr hmany)
  · rename_i hfew
    exact iff_of_true ⟨_, rfl⟩ (not_lt.mp hfew)

/-- The query of a merged summand is the query of one part, where the other part has none, or the queries
of both parts conjoined. -/
theorem merge_query_cases (h : s.merge t = .ok u) {p : Query K} (hp : u.query = some p) :
    s.query = some p ∧ t.query = none ∨ s.query = none ∧ t.query = some p
      ∨ ∃ q r, s.query = some q ∧ t.query = some r ∧ p = q.conjoin r := by
  obtain rfl := merge_eq_ok h
  simp only at hp
  cases hs : s.query with
  | none =>
    cases ht : t.query with
    | none =>
      rw [hs, ht] at hp
      cases hp
    | some r =>
      rw [hs, ht] at hp
      exact .inr (.inl ⟨rfl, hp⟩)
  | some q =>
    cases ht : t.query with
    | none =>
      rw [hs, ht] at hp
      exact .inl ⟨hp, rfl⟩
    | some r =>
      rw [hs, ht] at hp
      exact .inr (.inr ⟨q, r, rfl, rfl, (Option.some.inj hp).symm⟩)

/-- The bound symbols of two summands that are apart stand one after the other. -/
theorem bound_merge (h : s.merge t = .ok u) (hapart : ∀ x ∈ t.bound, x ∉ s.vars) :
    u.bound = s.bound ++ t.bound := by
  obtain rfl := merge_eq_ok h
  rw [bound, bound, bound]
  cases hs : s.query with
  | none => cases t.query <;> rfl
  | some q =>
    cases ht : t.query with
    | none => exact (List.append_nil _).symm
    | some r =>
      have hq : s.bound = q.symbols := by rw [bound, hs]; rfl
      have hr : t.bound = r.symbols := by rw [bound, ht]; rfl
      exact Query.symbols_conjoin fun x hx hxq =>
        hapart x (hr ▸ hx) (bound_subset_vars (hq ▸ hxq))

theorem mem_bound_merge (h : s.merge t = .ok u) {x : Symbol} :
    x ∈ u.bound ↔ x ∈ s.bound ∨ x ∈ t.bound := by
  obtain rfl := merge_eq_ok h
  rw [bound, bound, bound]
  cases s.query with
  | none =>
    cases t.query with
    | none => simp [mergeQueries]
    | some r => simp [mergeQueries]
  | some q =>
    cases t.query with
    | none => simp [mergeQueries]
    | some r => exact Query.mem_symbols_conjoin

/-- A merged summand has no other symbols than its parts. -/
theorem mem_vars_of_merge (h : s.merge t = .ok u) {x : Symbol} (hx : x ∈ u.vars) :
    x ∈ s.vars ∨ x ∈ t.vars := by
  rcases mem_vars.mp hx with hb | ⟨p, hp, hocc⟩ | ⟨f, hf, hxf⟩
  · rcases (mem_bound_merge h).mp hb with hb | hb
    · exact .inl (bound_subset_vars hb)
    · exact .inr (bound_subset_vars hb)
  · have hleft : ∀ q, s.query = some q → x ∈ q.formula.occurrences → x ∈ s.vars :=
      fun q hq hmem => mem_vars.mpr (.inr (.inl ⟨q, hq, hmem⟩))
    have hright : ∀ q, t.query = some q → x ∈ q.formula.occurrences → x ∈ t.vars :=
      fun q hq hmem => mem_vars.mpr (.inr (.inl ⟨q, hq, hmem⟩))
    rcases merge_query_cases h hp with ⟨hs, -⟩ | ⟨-, ht⟩ | ⟨q, r, hs, ht, rfl⟩
    · exact .inl (hleft p hs hocc)
    · exact .inr (hright p ht hocc)
    · exact (Query.mem_occurrences_of_conjoin hocc).imp (hleft q hs) (hright r ht)
  · obtain rfl := merge_eq_ok h
    exact (List.mem_append.mp hf).imp (fun hf => mem_vars.mpr (.inr (.inr ⟨f, hf, hxf⟩)))
      fun hf => mem_vars.mpr (.inr (.inr ⟨f, hf, hxf⟩))

/-- A free symbol of a merged summand is free in a part and bound in none. -/
theorem mem_freeVars_of_merge (h : s.merge t = .ok u) {x : Symbol} (hx : x ∈ u.freeVars) :
    x ∉ s.bound ∧ (x ∈ s.freeVars ∨ x ∈ t.freeVars) := by
  obtain ⟨hvars, hbound⟩ := mem_freeVars.mp hx
  rw [mem_bound_merge h, not_or] at hbound
  refine ⟨hbound.1, (mem_vars_of_merge h hvars).imp (fun hmem => ?_) fun hmem => ?_⟩
  · exact mem_freeVars.mpr ⟨hmem, hbound.1⟩
  · exact mem_freeVars.mpr ⟨hmem, hbound.2⟩

/-! ### Renamed bound symbols -/

/-- Renaming bound symbols keeps their number. -/
theorem length_bound_renameBound (clashes taken : List Symbol) (s : Summand K) :
    (s.renameBound clashes taken).bound.length = s.bound.length := by
  rw [(renamed_renameBound clashes taken s).bound_eq, List.length_map]

/-- **Each bound symbol keeps its name where that clashes with nothing**, and otherwise it becomes a variant
that is neither a symbol of the summand nor a clash nor taken. -/
theorem forall₂_bound_renameBound (clashes taken : List Symbol) (s : Summand K) :
    List.Forall₂ (fun x y => x ∉ clashes ∧ y = x
        ∨ x ∈ clashes ∧ y ∉ s.vars ++ clashes ++ taken ∧ ∃ n, y = variant x (n + 1))
      s.bound (s.renameBound clashes taken).bound := by
  rw [(renamed_renameBound clashes taken s).bound_eq, List.forall₂_map_right_iff, List.forall₂_same]
  intro x hx
  by_cases hc : x ∈ clashes
  · have hrenamed : x ∈ (s.boundNames clashes taken).map Prod.fst := mem_fst_boundNames.mpr ⟨hx, hc⟩
    have hmem := Renaming.mem_apply hrenamed
    obtain ⟨used, heq⟩ := exists_fresh_of_mem_freshNames hmem
    obtain ⟨n, hn, -⟩ := exists_fresh_eq used x
    exact .inr ⟨hc, notMem_used_of_mem_freshNames (List.mem_map_of_mem hmem), n, heq.trans hn⟩
  · exact .inl ⟨hc, Renaming.apply_of_notMem fun h => hc (mem_fst_boundNames.mp h).2⟩

/-! ### Products -/

/-- **The two operands of a product are apart**: neither sees a bound symbol of the other. -/
theorem product_apart (s t : Summand K) :
    (∀ x ∈ (s.renameBound (t.renameBound s.vars s.vars).freeVars
        (t.renameBound s.vars s.vars).vars).bound, x ∉ (t.renameBound s.vars s.vars).vars)
      ∧ ∀ x ∈ (t.renameBound s.vars s.vars).bound,
          x ∉ (s.renameBound (t.renameBound s.vars s.vars).freeVars
            (t.renameBound s.vars s.vars).vars).vars := by
  set right := t.renameBound s.vars s.vars
  have hright : ∀ x ∈ right.bound, x ∉ s.vars := fun x hx => notMem_of_mem_bound_renameBound hx
  have hleft : ∀ x ∈ (s.renameBound right.freeVars right.vars).bound, x ∉ right.vars := by
    intro x hx hmem
    have hfree : x ∉ right.freeVars := notMem_of_mem_bound_renameBound hx
    have hs : x ∈ s.bound := mem_bound_of_mem_taken hx hmem
    have hb : x ∈ right.bound := by
      by_contra hb
      exact hfree (mem_freeVars.mpr ⟨hmem, hb⟩)
    exact hright x hb (bound_subset_vars hs)
  refine ⟨hleft, fun x hx hmem => ?_⟩
  by_cases hb : x ∈ (s.renameBound right.freeVars right.vars).bound
  · exact hleft x hb (bound_subset_vars hx)
  · have hfree := ((renamed_renameBound right.freeVars right.vars s).mem_freeVars_iff x).mp
      (mem_freeVars.mpr ⟨hmem, hb⟩)
    exact hright x hx (mem_freeVars.mp hfree).1

/-- A product binds as many symbols as its operands together. -/
theorem length_bound_product (h : s.product t = .ok u) :
    u.bound.length = s.bound.length + t.bound.length := by
  rw [bound_merge h (product_apart s t).2, List.length_append, length_bound_renameBound,
    length_bound_renameBound]

/-- **A bound symbol of a product is free in no operand.** -/
theorem notMem_freeVars_of_mem_bound_product (h : s.product t = .ok u) {x : Symbol} (hx : x ∈ u.bound) :
    x ∉ s.freeVars ∧ x ∉ t.freeVars := by
  obtain ⟨hleft, hright⟩ := product_apart s t
  have hl := renamed_renameBound (t.renameBound s.vars s.vars).freeVars
    (t.renameBound s.vars s.vars).vars s
  have hr := renamed_renameBound s.vars s.vars t
  rw [← hl.mem_freeVars_iff, ← hr.mem_freeVars_iff, mem_freeVars, mem_freeVars]
  rcases (mem_bound_merge h).mp hx with hx | hx
  · exact ⟨fun hfree => hfree.2 hx, fun hfree => hleft x hx hfree.1⟩
  · exact ⟨fun hfree => hright x hx hfree.1, fun hfree => hfree.2 hx⟩

/-- A free symbol of a product is free in a factor. -/
theorem mem_freeVars_of_product (h : s.product t = .ok u) {x : Symbol} (hx : x ∈ u.freeVars) :
    x ∈ s.freeVars ∨ x ∈ t.freeVars := by
  rw [product] at h
  refine (mem_freeVars_of_merge h hx).2.imp (fun hmem => ?_) fun hmem => ?_
  · exact ((renamed_renameBound _ _ s).mem_freeVars_iff x).mp hmem
  · exact ((renamed_renameBound _ _ t).mem_freeVars_iff x).mp hmem

/-! ### Nesting -/

variable {q : Query K}

/-- The number one under a query. -/
def ofQuery {K : Type} [Scalar K] (q : Query K) : Summand K := { Summand.unit with query := some q }

theorem mem_vars_ofQuery {x : Symbol} : x ∈ (ofQuery q).vars ↔ x ∈ q.symbols ∨ x ∈ q.formula.vars := by
  rw [mem_vars, Formula.mem_vars]
  simp [bound, ofQuery, Summand.unit]

/-- A summand is nested under a query unless it multiplies two decision variables. -/
theorem exists_nest_iff : (∃ u, (ofQuery q).nest s = .ok u)
    ↔ (s.factors.filter (·.decision?.isSome)).length ≤ 1 := by
  have hfactors := (renamed_renameBound (ofQuery q).vars (ofQuery q).vars s).factors_eq
  have hnone : (ofQuery q).factors = [] := rfl
  rw [nest, exists_merge_iff, hfactors, hnone, List.nil_append, List.filter_map, List.length_map]
  simp only [Function.comp_def, Factor.isSome_decision?_rename]

/-- **A nested summand binds the symbols of the query first**, and behind them the bound symbols of the
summand, with their names or fresh ones. -/
theorem bound_nest (h : (ofQuery q).nest s = .ok u) :
    u.bound = q.symbols ++ (s.renameBound (ofQuery q).vars (ofQuery q).vars).bound :=
  bound_merge h fun _ hx => notMem_of_mem_bound_renameBound hx

/-- A free symbol of a nested summand is free in the summand or in the formula, and no symbol of the
query. -/
theorem mem_freeVars_of_nest (h : (ofQuery q).nest s = .ok u) {x : Symbol} (hx : x ∈ u.freeVars) :
    x ∉ q.symbols ∧ (x ∈ q.formula.occurrences ∨ x ∈ s.freeVars) := by
  rw [nest] at h
  obtain ⟨hb, hfree⟩ := mem_freeVars_of_merge h hx
  refine ⟨hb, hfree.imp (fun hmem => ?_) fun hmem => ?_⟩
  · exact Formula.mem_vars.mp ((mem_vars_ofQuery.mp (mem_freeVars.mp hmem).1).resolve_left hb)
  · exact ((renamed_renameBound _ _ s).mem_freeVars_iff x).mp hmem

end Summand

end RelationalLP
