import Mathlib
import RelationalLP.Proofs.Expr.Denotation
import RelationalLP.Proofs.Expr.MergedSymbols

/-! # Merging summands

Renaming the bound symbols of a summand keeps its denotation and its free symbols. Merging two summands
whose bound symbols are apart conjoins their conditions and multiplies their products. So the product of
two summands denotes the product, and a summand nested under a query denotes the sum over its
answers. -/

namespace RelationalLP

variable {R : Type} [CommSemiring R] {w : World} {m : Reading R}

theorem Factor.denote_rename (r : Renaming) (v : Valuation ℚ) (f : Factor ℚ) :
    (f.rename r).denote m v = f.denote m (v.renamed r) := by
  cases f with
  | atom a => exact congrArg m.atomValue (a.groundAt_rename r v)
  | symbol s => rfl

namespace Summand

namespace Renamed

variable {r : Renaming} {s s' : Summand ℚ} {v : Valuation ℚ}

/-- The condition is renamed. -/
theorem condition_eq (h : Renamed r s s') (w : World) (v : Valuation ℚ) :
    s'.condition w v = s.condition w (v.renamed r) := by
  rw [condition, condition, h.query_eq]
  cases s.query with
  | none => rfl
  | some q => exact Formula.kleene_rename r q.formula

theorem bodyDenote_eq (h : Renamed r s s') (v : Valuation ℚ) :
    s'.bodyDenote m v = s.bodyDenote m (v.renamed r) := by
  rw [bodyDenote, bodyDenote, h.coefficient_eq, h.factors_eq, List.map_map]
  exact congrArg _ (congrArg List.prod (List.map_congr_left fun f _ => f.denote_rename r v))

theorem term_eq (h : Renamed r s s') (v : Valuation ℚ) :
    s'.term w m v = s.term w m (v.renamed r) := by
  rw [term, term, h.condition_eq, h.bodyDenote_eq]

/-- **Renaming bound symbols keeps the denotation.** -/
theorem denote_eq (h : Renamed r s s') (v : Valuation ℚ) : s'.denote w m v = s.denote w m v := by
  rw [denote, denote, h.bound_eq, World.total_congr fun u _ => h.term_eq u]
  refine World.total_rename s.vars (fun _ _ h' => term_congr h') ?_ ?_
  · intro x hx y hy heq
    exact h.inj y hy x (bound_subset_vars hx) heq
  · intro x _ hb
    rw [h.fixes x hb]

/-- Renaming bound symbols keeps a summand decided. -/
theorem decided (h : Renamed r s s') (hs : s.Decided w v) : s'.Decided w v := by
  intro u hu
  rw [h.condition_eq, condition_congr (u := fun x => if x ∈ s.bound then u (r.apply x) else v x)]
  · refine hs _ ⟨fun x hx => if_neg hx, fun x hx => ?_⟩
    rw [if_pos hx]
    exact hu.binds _ (h.bound_eq ▸ List.mem_map_of_mem hx)
  · intro x hx
    rw [Valuation.renamed]
    split
    · rfl
    · rename_i hb
      rw [h.fixes x hb]
      refine hu.keeps x fun hmem => ?_
      rw [h.bound_eq] at hmem
      obtain ⟨y, hy, heq⟩ := List.mem_map.mp hmem
      have hxy := h.inj y (bound_subset_vars hy) x hx (heq.trans (h.fixes x hb).symm)
      exact hb (hxy ▸ hy)

end Renamed

/-! ### Merging -/

section Merge

variable {s t u : Summand ℚ} {v : Valuation ℚ}

/-- A merged condition holds when both do. -/
theorem condition_merge (h : s.merge t = .ok u) {x : Bool}
    (hx : Connective.conj.combine [s.condition w v, t.condition w v] = some x) :
    u.condition w v = some x := by
  obtain rfl := merge_eq_ok h
  rw [condition, condition] at hx
  rw [condition]
  cases hs : s.query with
  | none =>
    cases ht : t.query with
    | none =>
      rw [hs, ht] at hx
      exact hx
    | some r =>
      -- without a query the condition of the first summand is true
      rw [hs, ht] at hx
      rwa [Connective.combine_true_left] at hx
  | some q =>
    cases ht : t.query with
    | none =>
      rw [hs, ht] at hx
      rwa [Connective.combine_true_right] at hx
    | some r =>
      rw [hs, ht] at hx
      exact Query.kleene_conjoin hx

/-- A merged condition is false with the first one, and the second one where the first one holds. -/
theorem condition_merge_cases (h : s.merge t = .ok u) (hfirst : s.condition w v ≠ none)
    (hsecond : s.condition w v = some true → t.condition w v ≠ none) :
    s.condition w v = some false ∧ u.condition w v = some false
      ∨ s.condition w v = some true ∧ t.condition w v ≠ none
        ∧ u.condition w v = t.condition w v := by
  obtain ⟨b, hb⟩ := Option.ne_none_iff_exists'.mp hfirst
  cases b with
  | false => exact .inl ⟨hb, condition_merge h (by rw [hb, Connective.combine_false_left])⟩
  | true =>
    obtain ⟨c, hc⟩ := Option.ne_none_iff_exists'.mp (hsecond hb)
    refine .inr ⟨hb, hsecond hb, ?_⟩
    rw [hc]
    exact condition_merge h (by rw [hb, Connective.combine_true_left, hc])

theorem bodyDenote_merge (h : s.merge t = .ok u) (v : Valuation ℚ) :
    u.bodyDenote m v = s.bodyDenote m v * t.bodyDenote m v := by
  obtain rfl := merge_eq_ok h
  rw [bodyDenote, bodyDenote, bodyDenote, map_mul, List.map_append, List.prod_append]
  exact mul_mul_mul_comm _ _ _ _

/-- The condition of the first summand does not see the symbols of the second one. Where it is false the
merged condition is, and where it is true the merged condition is that of the second summand. -/
theorem condition_merge_of_reaches (h : s.merge t = .ok u) (hapart : ∀ x ∈ t.bound, x ∉ s.vars)
    {v' v'' : Valuation ℚ} (ht : w.Reaches t.bound v' v'') (hfirst : s.condition w v' ≠ none)
    (hsecond : s.condition w v' = some true → t.Decided w v') :
    s.condition w v' = some false ∧ u.condition w v'' = some false
      ∨ s.condition w v' = some true ∧ t.condition w v'' ≠ none
        ∧ u.condition w v'' = t.condition w v'' := by
  have hsame : s.condition w v'' = s.condition w v' :=
    condition_congr fun x hx => ht.keeps x fun hb => hapart x hb hx
  rw [← hsame]
  exact condition_merge_cases h (hsame ▸ hfirst) fun hc => hsecond (hsame ▸ hc) v'' ht

/-- **Merging under conditions**: where the second summand is decided whenever the condition of the
first one holds, the merged summand sums the products over both. -/
theorem denote_merge (h : s.merge t = .ok u) (hapart : ∀ x ∈ t.bound, x ∉ s.vars)
    (hdec : ∀ v', w.Reaches s.bound v v' → s.condition w v' ≠ none
      ∧ (s.condition w v' = some true → t.Decided w v')) :
    u.Decided w v ∧ u.denote w m v
      = w.total s.bound (fun v' => if s.condition w v' = some true
          then s.bodyDenote m v' * t.denote w m v' else 0) v := by
  have hstay : ∀ {v' v''}, w.Reaches t.bound v' v'' → ∀ x ∈ s.vars, v'' x = v' x :=
    fun hr x hx => hr.keeps x fun hb => hapart x hb hx
  have hcond := fun {v' v''} (hs : w.Reaches s.bound v v') (ht : w.Reaches t.bound v' v'') =>
    condition_merge_of_reaches h hapart ht (hdec v' hs).1 (hdec v' hs).2
  constructor
  · intro v'' hv''
    -- the symbols of both are bound together, so the first binding is one of the first summand
    rw [bound_merge h hapart] at hv''
    obtain ⟨v', hs, ht⟩ := hv''.split
    rcases hcond hs ht with ⟨-, hu⟩ | ⟨-, hne, hu⟩
    · rw [hu]
      exact Option.some_ne_none false
    · rwa [hu]
  · rw [denote, bound_merge h hapart, World.total_append]
    refine World.total_congr fun v' hs => ?_
    cases hc : s.condition w v' with
    | none => exact absurd hc (hdec v' hs).1
    | some b =>
      cases b with
      | false =>
        -- the first condition is false, and with it all merged ones
        rw [if_neg (by decide)]
        refine World.total_eq_zero fun v'' ht => ?_
        rcases hcond hs ht with ⟨-, hu⟩ | ⟨htrue', -⟩
        · rw [term, hu, if_neg (by decide)]
        · cases hc.symm.trans htrue'
      | true =>
        -- the first factors do not see the symbols of the second summand
        rw [if_pos rfl, denote, ← World.total_mul_left]
        refine World.total_congr fun v'' ht => ?_
        rcases hcond hs ht with ⟨hfalse', -⟩ | ⟨-, -, hu⟩
        · cases hc.symm.trans hfalse'
        · rw [term, hu, bodyDenote_merge h, bodyDenote_congr (s := s) (hstay ht), term, mul_ite,
            mul_zero]

end Merge

/-! ### Products -/

section Product

variable {s t u : Summand ℚ} {v : Valuation ℚ}

/-- **The product of two summands denotes their product.** -/
theorem denote_product (h : s.product t = .ok u) (hs : s.Decided w v) (ht : t.Decided w v) :
    u.Decided w v ∧ u.denote w m v = s.denote w m v * t.denote w m v := by
  obtain ⟨hleft, hright⟩ := product_apart s t
  rw [product] at h
  have hr := renamed_renameBound s.vars s.vars t
  have hl := renamed_renameBound (t.renameBound s.vars s.vars).freeVars
    (t.renameBound s.vars s.vars).vars s
  rw [← hl.denote_eq, ← hr.denote_eq]
  have hl' := hl.decided hs
  have hr' := hr.decided ht
  generalize t.renameBound s.vars s.vars = right at *
  generalize s.renameBound right.freeVars right.vars = left at *
  -- the right summand does not see the symbols of the left one
  have hstay : ∀ {v'}, w.Reaches left.bound v v' → ∀ x ∈ right.freeVars, v x = v' x :=
    fun hv' x hx => (hv'.keeps x fun hb => hleft x hb (mem_freeVars.mp hx).1).symm
  obtain ⟨hdecided, hdenote⟩ := denote_merge (w := w) (m := m) (v := v) h hright fun v' hv' =>
    ⟨hl' v' hv', fun _ => hr'.congr (hstay hv')⟩
  refine ⟨hdecided, ?_⟩
  rw [hdenote, denote, ← World.total_mul_right]
  refine World.total_congr fun v' hv' => ?_
  rw [term, ite_mul, zero_mul, denote_congr (hstay hv')]

end Product

/-! ### Nesting -/

section Nest

variable {q : Query ℚ} {s u : Summand ℚ} {v : Valuation ℚ}

/-- **A summand nested under a query denotes the sum over its answers.** -/
theorem denote_nest (h : (ofQuery q).nest s = .ok u)
    (hdec : ∀ v', w.Reaches q.symbols v v' → q.formula.kleene v' w.truthOf ≠ none
      ∧ (q.formula.kleene v' w.truthOf = some true → s.Decided w v')) :
    u.Decided w v ∧ u.denote w m v = w.total q.symbols
      (fun v' => if q.formula.kleene v' w.truthOf = some true then s.denote w m v' else 0) v := by
  rw [nest] at h
  have hr := renamed_renameBound (ofQuery q).vars (ofQuery q).vars s
  obtain ⟨hdecided, hdenote⟩ := denote_merge (w := w) (m := m) (v := v) h
    (fun x hx => notMem_of_mem_bound_renameBound hx)
    fun v' hv' => ⟨(hdec v' hv').1, fun hc => hr.decided ((hdec v' hv').2 hc)⟩
  refine ⟨hdecided, hdenote.trans ?_⟩
  have hone : ∀ v', (ofQuery q).bodyDenote m v' = 1 := by
    intro v'
    rw [bodyDenote, ofQuery, unit, List.map_nil, List.prod_nil, mul_one, map_one]
  simp only [hone, one_mul, hr.denote_eq]
  rfl

end Nest

end Summand

end RelationalLP
