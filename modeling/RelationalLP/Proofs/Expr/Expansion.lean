import Mathlib
import RelationalLP.Expr.Normalize
import RelationalLP.Proofs.Expr.FreeSymbols
import RelationalLP.Proofs.Expr.Merging

/-! # Expansion

The summands of a decided expression are decided, and their denotations add up to the denotation of the
expression, in every semiring. They have no free symbols but those of the expression. -/

namespace RelationalLP

namespace Expr

open Summand

variable {R : Type} [CommSemiring R] {w : World} {m : Reading R} {v : Valuation ℚ}

/-! ### Denotation -/

theorem denote_unit (v : Valuation ℚ) : (Summand.unit : Summand ℚ).denote w m v = 1 := by
  rw [Summand.denote, bound, unit, Option.map_none, Option.getD_none, World.total_nil, term,
    condition, if_pos rfl, bodyDenote, List.map_nil, List.prod_nil, mul_one, map_one]

/-- A summand without a query is decided. -/
theorem decided_of_query_eq_none {s : Summand ℚ} (h : s.query = none) : s.Decided w v := by
  intro u _
  rw [condition, h]
  exact Option.some_ne_none true

/-- A summand without a query denotes its product. -/
theorem denote_of_query_eq_none {s : Summand ℚ} (h : s.query = none) :
    s.denote w m v = s.bodyDenote m v := by
  rw [Summand.denote, bound, h, Option.map_none, Option.getD_none, World.total_nil, term, condition,
    h, if_pos rfl]

/-- The products of two lists of summands denote the product of their sums. -/
theorem denote_products {left right ss : List (Summand ℚ)} (h : products left right = .ok ss)
    (hl : ∀ s ∈ left, s.Decided w v) (hr : ∀ s ∈ right, s.Decided w v) :
    (∀ s ∈ ss, s.Decided w v) ∧ (ss.map (·.denote w m v)).sum
      = (left.map (·.denote w m v)).sum * (right.map (·.denote w m v)).sum := by
  -- the pairs are multiplied one by one, so only their order matters
  have hpairs := mapM_eq_ok_iff.mp h
  have hmem : ∀ p ∈ left.flatMap (fun l => right.map (l, ·)),
      p.1.Decided w v ∧ p.2.Decided w v := by
    intro p hp
    obtain ⟨l, hl', hp⟩ := List.mem_flatMap.mp hp
    obtain ⟨r, hr', rfl⟩ := List.mem_map.mp hp
    exact ⟨hl l hl', hr r hr'⟩
  refine ⟨forall_mem_of_forall₂ hpairs fun p hp s hs =>
    (denote_product (m := m) hs (hmem p hp).1 (hmem p hp).2).1, ?_⟩
  rw [map_eq_map_of_forall₂ hpairs fun p hp s hs =>
    (denote_product (m := m) hs (hmem p hp).1 (hmem p hp).2).2]
  clear h hpairs hmem hl
  induction left with
  | nil => rw [List.flatMap_nil, List.map_nil, List.map_nil, List.sum_nil, zero_mul]
  | cons l left ih =>
    have hfirst : ((right.map (l, ·)).map fun p => p.1.denote w m v * p.2.denote w m v).sum
        = l.denote w m v * (right.map (·.denote w m v)).sum := by
      rw [List.map_map, ← List.sum_map_mul_left]
      rfl
    rw [List.flatMap_cons, List.map_append, List.sum_append, ih, hfirst, List.map_cons,
      List.sum_cons, add_mul]

/-- A single summand without a query is decided, and an expression that denotes its product denotes it. -/
theorem denote_singleton {e : Expr ℚ} {s : Summand ℚ} (hs : s.query = none)
    (he : e.denote w m v = s.bodyDenote m v) :
    (∀ s' ∈ [s], s'.Decided w v) ∧ e.denote w m v = ([s].map (·.denote w m v)).sum := by
  refine ⟨List.forall_mem_singleton.mpr (decided_of_query_eq_none hs), ?_⟩
  rw [List.map_singleton, List.sum_singleton, denote_of_query_eq_none hs, he]

mutual

/-- **The summands of an expression add up to it.** -/
theorem denote_expand :
    (e : Expr ℚ) → ∀ {ss}, e.expand = .ok ss → ∀ v, e.Decided w v →
      (∀ s ∈ ss, s.Decided w v) ∧ e.denote w m v = (ss.map (·.denote w m v)).sum
  | constant q, ss, h, v, _ => by
    obtain rfl := Except.ok.inj h
    refine denote_singleton rfl ?_
    rw [bodyDenote, unit, List.map_nil, List.prod_nil, mul_one, denote]
  | symbol s, ss, h, v, _ => by
    obtain rfl := Except.ok.inj h
    refine denote_singleton rfl ?_
    rw [bodyDenote, unit, List.map_singleton, List.prod_singleton, map_one, one_mul, denote,
      Factor.denote]
  | atom a, ss, h, v, _ => by
    rw [expand] at h
    split at h
    · -- a numeric atom only
      exact nomatch h
    · obtain rfl := Except.ok.inj h
      refine denote_singleton rfl ?_
      rw [bodyDenote, unit, List.map_singleton, List.prod_singleton, map_one, one_mul, denote,
        Factor.denote]
  | add es, ss, h, v, hd => denote_expandTerms es h v hd
  | mul es, ss, h, v, hd => by
    obtain ⟨hdecided, hsum⟩ := denote_expandFactors es h v
      (List.forall_mem_singleton.mpr (decided_of_query_eq_none rfl)) hd
    refine ⟨hdecided, ?_⟩
    rw [hsum, List.map_singleton, List.sum_singleton, denote_unit, one_mul, denote]
  | sum q body, ss, h, v, hd => by
    obtain ⟨inner, hbody, h⟩ := bind_eq_ok_iff.mp h
    have hnest : List.Forall₂ (fun s u => (ofQuery q).nest s = .ok u) inner ss :=
      mapM_eq_ok_iff.mp h
    -- under a true formula the body is decided, and so are its summands
    have hinner : ∀ s ∈ inner, ∀ v', w.Reaches q.symbols v v' →
        q.formula.kleene v' w.truthOf ≠ none
          ∧ (q.formula.kleene v' w.truthOf = some true → s.Decided w v') := fun s hs v' hv' =>
      ⟨(hd v' hv').1, fun hc => (denote_expand body hbody v' ((hd v' hv').2 hc)).1 s hs⟩
    refine ⟨forall_mem_of_forall₂ hnest fun s hs u hu =>
      (denote_nest (m := m) hu (hinner s hs)).1, ?_⟩
    rw [map_eq_map_of_forall₂ hnest fun s hs u hu =>
      (denote_nest (m := m) hu (hinner s hs)).2, ← World.total_list_sum, denote]
    refine World.total_congr fun v' hv' => ?_
    split
    · rename_i hc
      exact (denote_expand body hbody v' ((hd v' hv').2 hc)).2
    · -- where the formula is not true every summand is left out
      rw [List.map_const', List.sum_replicate, smul_zero]

theorem denote_expandTerms :
    (es : List (Expr ℚ)) → ∀ {ss}, expandTerms es = .ok ss → ∀ v, DecidedList w es v →
      (∀ s ∈ ss, s.Decided w v) ∧ denoteTerms w m es v = (ss.map (·.denote w m v)).sum
  | [], ss, h, v, _ => by
    obtain rfl := Except.ok.inj h
    exact ⟨nofun, rfl⟩
  | e :: es, ss, h, v, hd => by
    obtain ⟨first, hfirst, h⟩ := bind_eq_ok_iff.mp h
    obtain ⟨rest, hrest, h⟩ := bind_eq_ok_iff.mp h
    obtain rfl := Except.ok.inj h
    obtain ⟨hd₁, hs₁⟩ := denote_expand e hfirst v hd.1
    obtain ⟨hd₂, hs₂⟩ := denote_expandTerms es hrest v hd.2
    refine ⟨fun s hs => (List.mem_append.mp hs).elim (hd₁ s) (hd₂ s), ?_⟩
    rw [denoteTerms, hs₁, hs₂, List.map_append, List.sum_append]

theorem denote_expandFactors :
    (es : List (Expr ℚ)) → ∀ {left ss}, expandFactors left es = .ok ss → ∀ v,
      (∀ s ∈ left, s.Decided w v) → DecidedList w es v →
        (∀ s ∈ ss, s.Decided w v) ∧ (ss.map (·.denote w m v)).sum
          = (left.map (·.denote w m v)).sum * denoteFactors w m es v
  | [], left, ss, h, v, hl, _ => by
    obtain rfl := Except.ok.inj h
    exact ⟨hl, (mul_one _).symm⟩
  | e :: es, left, ss, h, v, hl, hd => by
    obtain ⟨right, hright, h⟩ := bind_eq_ok_iff.mp h
    obtain ⟨both, hprod, h⟩ := bind_eq_ok_iff.mp h
    obtain ⟨hd₁, hs₁⟩ := denote_expand e hright v hd.1
    obtain ⟨hd₂, hs₂⟩ := denote_products (m := m) hprod hl hd₁
    obtain ⟨hd₃, hs₃⟩ := denote_expandFactors es h v hd₂ hd.2
    refine ⟨hd₃, ?_⟩
    rw [hs₃, hs₂, denoteFactors, hs₁, mul_assoc]

end

/-! ### Coefficients -/

/-- Where zero reads as zero, a summand with coefficient zero is zero. -/
theorem denote_of_coefficient_eq_zero (hm : m.coefficient 0 = 0) {s : Summand ℚ}
    (h : s.coefficient = 0) (v : Valuation ℚ) : s.denote w m v = 0 := by
  refine World.total_eq_zero fun u _ => ?_
  have hbody : s.bodyDenote m u = 0 := by rw [bodyDenote, h, hm, zero_mul]
  rw [term, hbody, ite_self]

/-- Dropping summands with coefficient zero keeps the sum. -/
theorem sum_denote_nonzero (hm : m.coefficient 0 = 0) (ss : List (Summand ℚ)) (v : Valuation ℚ) :
    ((ss.filter fun s => !Scalar.isZero s.coefficient).map (·.denote w m v)).sum
      = (ss.map (·.denote w m v)).sum := by
  induction ss with
  | nil => rfl
  | cons s ss ih =>
    rw [List.filter_cons, List.map_cons, List.sum_cons]
    split
    · rw [List.map_cons, List.sum_cons, ih]
    · rename_i hzero
      rw [Scalar.isZero_rat, Bool.not_eq_true', Bool.not_eq_false, decide_eq_true_eq] at hzero
      rw [ih, denote_of_coefficient_eq_zero hm hzero, zero_add]

/-! ### Summands -/

/-- The summands of a decided expression are decided. -/
theorem decided_of_summands {e : Expr ℚ} {ss : List (Summand ℚ)} (h : e.summands = .ok ss)
    {v : Valuation ℚ} (he : e.Decided w v) : ∀ s ∈ ss, s.Decided w v := by
  obtain ⟨all, hall, rfl⟩ := summands_eq_ok h
  exact fun s hs => (denote_expand (m := ⟨MonoidHom.id ℚ, 0, fun _ => 0⟩) e hall v he).1 s
    (List.mem_of_mem_filter hs)

/-- **An expression denotes the sum of its summands**, where zero reads as zero. -/
theorem denote_of_summands {e : Expr ℚ} {ss : List (Summand ℚ)} (h : e.summands = .ok ss)
    {v : Valuation ℚ} (he : e.Decided w v) (hm : m.coefficient 0 = 0) :
    e.denote w m v = (ss.map (·.denote w m v)).sum := by
  obtain ⟨all, hall, rfl⟩ := summands_eq_ok h
  rw [(denote_expand e hall v he).2, sum_denote_nonzero hm]

/-! ### Free symbols -/

mutual

/-- The free symbols of an expression are listed. -/
theorem mem_freeVars_iff {x : Symbol} : (e : Expr ℚ) → (x ∈ e.freeVars ↔ x.FreeIn e)
  | constant _ => by simp [freeVars]
  | symbol _ => by simp [freeVars]
  | atom _ => by simp [freeVars]
  | add es => by rw [freeVars, Symbol.freeIn_add, mem_freeVarsList_iff es]
  | mul es => by rw [freeVars, Symbol.freeIn_mul, mem_freeVarsList_iff es]
  | sum q body => by
    rw [freeVars, Symbol.freeIn_sum, List.mem_filter, List.mem_append, decide_eq_true_eq,
      Formula.mem_vars, mem_freeVars_iff body]

theorem mem_freeVarsList_iff {x : Symbol} :
    (es : List (Expr ℚ)) → (x ∈ freeVarsList es ↔ ∃ e ∈ es, x.FreeIn e)
  | [] => by simp [freeVarsList]
  | e :: es => by
    rw [freeVarsList, List.mem_append, List.exists_mem_cons_iff, mem_freeVars_iff e,
      mem_freeVarsList_iff es]

end

/-- Expansion lists no other free symbols. -/
theorem mem_freeVars_of_expand {x : Symbol} (e : Expr ℚ) {ss : List (Summand ℚ)} (h : e.expand = .ok ss)
    (s : Summand ℚ) (hs : s ∈ ss) (hx : x ∈ s.freeVars) : x ∈ e.freeVars :=
  (mem_freeVars_iff e).mpr (freeIn_of_expand e h s hs hx)

end Expr

end RelationalLP
