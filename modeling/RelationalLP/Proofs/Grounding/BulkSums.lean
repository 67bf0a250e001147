import Mathlib
import RelationalLP.Proofs.Grounding.BulkRows
import RelationalLP.Proofs.Grounding.Rows

/-! # Sums of bulk rows

The summands of an expression under an outer query, with their bound symbols renamed apart. For every
tuple of the outer query, the rows that belong to it add up to what the summand denotes there. -/

namespace RelationalLP

variable {w : World} {fb : FactBase ℚ} {outer : Query ℚ} {s : Summand ℚ}

/-! ### Readings of products -/

/-- The decision variable of a product is never zero for want of facts. -/
theorem FactBase.demands_decisionDenote_ne_zero (s : Summand ℚ) (v : Valuation ℚ) :
    s.decisionDenote fb.demands v ≠ 0 := by
  cases hd : s.decision? with
  | none => simp [Summand.decisionDenote, hd]
  | some a =>
    cases hg : a.groundAt v with
    | none =>
      simp only [Summand.decisionDenote, hd, hg, Option.map_some, Option.getD_some]
      exact ENat.top_ne_zero
    | some g =>
      rw [demands_decisionDenote hd hg]
      exact one_ne_zero

/-- A finite product has finite plain factors. -/
theorem FactBase.plainDenote_ne_top (hs : s.Linear) {v : Valuation ℚ}
    (h : s.bodyDenote fb.demands v ≠ ⊤) : s.plainDenote fb.demands v ≠ ⊤ := by
  intro htop
  rw [Summand.bodyDenote_eq_mul hs, htop] at h
  exact h (ENat.top_mul (demands_decisionDenote_ne_zero s v))

/-! ### Outer queries -/

/-- The formula of an outer query says the same, whatever other symbols are bound to. -/
theorem Query.Scoped.kleene_eq (h : outer.Scoped []) {symbols : List Symbol}
    (hapart : ∀ x ∈ symbols, x ∉ outer.symbols) {v u : Valuation ℚ} (hu : w.Reaches symbols v u) :
    outer.formula.kleene u w.truthOf = outer.formula.kleene v w.truthOf :=
  Formula.kleene_congr outer.formula fun x hx => hu.keeps x fun hb =>
    hapart x hb ((h x hx).resolve_right List.not_mem_nil)

namespace Query.Encloses

/-- The query that always holds encloses a decided summand. -/
theorem of_always (hs : s.Fits w.Admits []) (hd : s.Decided w .unbound) :
    (Query.always : Query ℚ).Encloses w s where
  knows := fun _ hc => absurd hc List.not_mem_nil
  inScope := fun _ hx => absurd hx List.not_mem_nil
  fits := hs
  apart := fun _ _ => List.not_mem_nil
  decided := fun u hu => ⟨nofun, fun _ => hd u hu⟩

/-- **A summand renamed apart is enclosed** by a query under which it fits and is decided. -/
theorem of_renameApart (hknows : w.constants.Knows outer.formula.terms) (hscope : outer.Scoped [])
    (hs : s.Fits w.Admits outer.symbols)
    (hd : ∀ v, w.Reaches outer.symbols .unbound v → outer.formula.kleene v w.truthOf ≠ none
      ∧ (outer.formula.kleene v w.truthOf = some true → s.Decided w v)) :
    outer.Encloses w (s.renameApart (outer.symbols ++ outer.formula.vars)) := by
  have hapart : ∀ x ∈ (s.renameApart (outer.symbols ++ outer.formula.vars)).bound,
      x ∉ outer.symbols := fun x hx hmem =>
    Summand.notMem_of_mem_bound_renameBound hx (List.mem_append_left _ hmem)
  refine ⟨hknows, hscope, hs.renameBound w.keptByFresh_admits _ _, hapart, fun u hu => ?_⟩
  obtain ⟨v, hv, hvu⟩ := hu.split
  obtain ⟨houter, hdecided⟩ := hd v hv
  rw [hscope.kleene_eq hapart hvu]
  exact ⟨houter, fun htrue =>
    (Summand.renamed_renameBound _ _ s).decided (hdecided htrue) u hvu⟩

end Query.Encloses

/-! ### Rows that belong to a tuple -/

namespace Blocks

/-- The quantity of a row: its number times the decision variable of the summand under its tuple. -/
def answerQuantity (fb : FactBase ℚ) (outer : Query ℚ) (s : Summand ℚ) (row : Tuple ℚ × ℚ) :
    Quantity := fun x =>
  row.2 * s.decisionDenote (fb.values x) (Valuation.unbound.extend (outer.symbols ++ s.bound) row.1)

variable {found : List (Tuple ℚ × ℚ)}

/-- The denotation of a summand under a tuple of the outer query, by the rows of this tuple. -/
theorem Answered.denote_eq_sum (he : outer.Encloses w s) (h : Answered w fb outer s found)
    {t : Tuple ℚ} (ht : t ∈ w.tuples outer.symbols.length)
    (htrue : outer.formula.kleene (Valuation.unbound.extend outer.symbols t) w.truthOf = some true)
    {R : Type} [CommSemiring R] (m : Reading R) :
    s.denote w m (Valuation.unbound.extend outer.symbols t)
      = ((found.filter (·.1.take outer.symbols.length = t)).map fun r =>
        s.bodyDenote m (Valuation.unbound.extend (outer.symbols ++ s.bound) r.1)).sum := by
  have hlist : w.Listing s.bound (fun u => s.condition w u = some true)
      (Valuation.unbound.extend outer.symbols t) _ :=
    (h.listing.under ht).congr s.nodup_bound fun u hu => by
      rw [BothHold, he.inScope.kleene_eq he.apart hu, htrue, and_iff_right rfl]
  have hsum := hlist.total_eq (s.bodyDenote m)
  rw [Summand.denote]
  show w.total s.bound (fun u => if s.condition w u = some true then _ else 0) _ = _
  rw [hsum, List.filter_map, List.map_map, List.map_map]
  refine congrArg List.sum (List.map_congr_left fun r hr => ?_)
  have hfirst : r.1.take outer.symbols.length = t := of_decide_eq_true (List.mem_filter.mp hr).2
  show s.bodyDenote m ((Valuation.unbound.extend outer.symbols t).extend s.bound
    (r.1.drop outer.symbols.length)) = _
  rw [← Valuation.extend_append _ (World.mem_tuples.mp ht).1, ← hfirst, List.take_append_drop]

/-- **The rows of a tuple add up** to what the summand denotes there, where this is finite. -/
theorem Answered.sum_eq (hs : s.Linear) (he : outer.Encloses w s) (h : Answered w fb outer s found)
    {t : Tuple ℚ} (ht : t ∈ w.tuples outer.symbols.length)
    (htrue : outer.formula.kleene (Valuation.unbound.extend outer.symbols t) w.truthOf = some true)
    (hfinite : s.denote w fb.demands (Valuation.unbound.extend outer.symbols t) ≠ ⊤)
    (x : Atom ℚ → ℚ) :
    ((found.filter (·.1.take outer.symbols.length = t)).map (answerQuantity fb outer s · x)).sum
      = s.denote w (fb.values x) (Valuation.unbound.extend outer.symbols t) := by
  rw [h.denote_eq_sum he ht htrue, sum_ne_top_iff, List.forall_mem_map] at hfinite
  rw [h.denote_eq_sum he ht htrue]
  refine congrArg List.sum (List.map_congr_left fun r hr => ?_)
  have hplain := FactBase.plainDenote_ne_top hs (hfinite r hr)
  rw [answerQuantity, h.value_eq r (List.mem_of_mem_filter hr) hplain x,
    Summand.bodyDenote_eq_mul hs]

end Blocks

end RelationalLP
