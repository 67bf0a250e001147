import Mathlib
import RelationalLP.Proofs.Expr.Linearity
import RelationalLP.Proofs.Expr.ValuePreservation

/-! # Mixtures of interpretations

An expression that has a normal form is linear in the decision variables: where their values are mixed,
so is its value. The expression itself may multiply what depends on decision variables, as long as one of
the factors expands to nothing; so the value is followed along with the summands it expands to. -/

namespace RelationalLP

/-- **A mixture of two interpretations**: all three give the same answers and the same values to all atoms
but decision variables, and these are valued in between. -/
structure Interpretation.Mixes (t : ℚ) (i₀ i₁ i : Interpretation ℚ Id) : Prop where
  /-- The answers are the same. -/
  answers₀ : i₀.answers = i.answers
  /-- The answers are the same. -/
  answers₁ : i₁.answers = i.answers
  /-- Known values are the same. -/
  value₀ : ∀ a : Atom ℚ, a.isDecision = false → i₀.value a = i.value a
  /-- Known values are the same. -/
  value₁ : ∀ a : Atom ℚ, a.isDecision = false → i₁.value a = i.value a
  /-- The values of decision variables are mixed. -/
  decision : ∀ a : Atom ℚ, a.isGround = true → a.isDecision = true → ∀ {v₀ v₁ v},
    i₀.value a = .ok v₀ → i₁.value a = .ok v₁ → i.value a = .ok v → v = (1 - t) * v₀ + t * v₁

/-! ### Decision variables of summands -/

namespace Summand

variable {s t u : Summand ℚ}

theorem decision?_eq_none_iff : s.decision? = none ↔ ∀ f ∈ s.factors, f.decision? = none :=
  List.findSome?_eq_none_iff

theorem decision?_renameBound_eq_none_iff (clashes taken : List Symbol) :
    (s.renameBound clashes taken).decision? = none ↔ s.decision? = none := by
  have hfactors := (renamed_renameBound clashes taken s).factors_eq
  rw [decision?_eq_none_iff, decision?_eq_none_iff, hfactors, List.forall_mem_map]
  refine forall₂_congr fun f _ => ?_
  rw [← Option.not_isSome_iff_eq_none, ← Option.not_isSome_iff_eq_none,
    Factor.isSome_decision?_rename]

/-- A merged summand has no decision variable exactly when both summands have none. -/
theorem decision?_merge_eq_none_iff (h : s.merge t = .ok u) :
    u.decision? = none ↔ s.decision? = none ∧ t.decision? = none := by
  simp only [decision?_eq_none_iff, merge_eq_ok h, List.forall_mem_append]

/-- Some factor is a decision variable. -/
theorem length_filter_decision?_pos (h : s.decision? ≠ none) :
    0 < (s.factors.filter (·.decision?.isSome)).length := by
  obtain ⟨a, ha⟩ := Option.ne_none_iff_exists'.mp h
  obtain ⟨f, hf, hfa⟩ := List.exists_of_findSome?_eq_some ha
  exact List.length_pos_of_mem (List.mem_filter.mpr ⟨hf, by rw [hfa]; rfl⟩)

/-- Of two summands that are merged, one has no decision variable. -/
theorem decision?_eq_none_of_merge (h : s.merge t = .ok u) :
    s.decision? = none ∨ t.decision? = none := by
  by_contra hboth
  obtain ⟨hs, ht⟩ := not_or.mp hboth
  have hs := length_filter_decision?_pos hs
  have ht := length_filter_decision?_pos ht
  rw [merge, List.filter_append, List.length_append, if_pos (by omega)] at h
  cases h

theorem decision?_product_eq_none_iff (h : s.product t = .ok u) :
    u.decision? = none ↔ s.decision? = none ∧ t.decision? = none := by
  rw [decision?_merge_eq_none_iff h, decision?_renameBound_eq_none_iff,
    decision?_renameBound_eq_none_iff]

theorem decision?_eq_none_of_product (h : s.product t = .ok u) :
    s.decision? = none ∨ t.decision? = none := by
  have hmerge := decision?_eq_none_of_merge h
  rwa [decision?_renameBound_eq_none_iff, decision?_renameBound_eq_none_iff] at hmerge

theorem decision?_nest_eq_none_iff {q : Query ℚ} (h : (ofQuery q).nest s = .ok u) :
    u.decision? = none ↔ s.decision? = none := by
  rw [decision?_merge_eq_none_iff h, decision?_renameBound_eq_none_iff]
  exact and_iff_right rfl

end Summand

/-! ### Values and the summands they come from -/

/-- **Three values of what expands to some summands**: they are zero without any, the same without
decision variables, and mixed in any case. -/
structure MixedValues (t : ℚ) (ss : List (Summand ℚ)) (v₀ v₁ v : ℚ) : Prop where
  /-- Without summands the values are zero. -/
  zero : ss = [] → v₀ = 0 ∧ v₁ = 0 ∧ v = 0
  /-- Without decision variables the values are the same. -/
  same : (∀ s ∈ ss, s.decision? = none) → v₀ = v ∧ v₁ = v
  /-- The last value is mixed from the others. -/
  mixed : v = (1 - t) * v₀ + t * v₁

namespace MixedValues

variable {t : ℚ} {ss left right : List (Summand ℚ)} {v₀ v₁ v w₀ w₁ w : ℚ}

theorem zeros (t : ℚ) (ss : List (Summand ℚ)) : MixedValues t ss 0 0 0 where
  zero _ := ⟨rfl, rfl, rfl⟩
  same _ := ⟨rfl, rfl⟩
  mixed := by ring

/-- A known value. -/
theorem known (t : ℚ) (s : Summand ℚ) (v : ℚ) : MixedValues t [s] v v v where
  zero h := absurd h (List.cons_ne_nil _ _)
  same _ := ⟨rfl, rfl⟩
  mixed := by ring

/-- Values of two expressions add up to values of their sum. -/
theorem append (h : MixedValues t left v₀ v₁ v) (h' : MixedValues t right w₀ w₁ w) :
    MixedValues t (left ++ right) (v₀ + w₀) (v₁ + w₁) (v + w) where
  zero hnil := by
    obtain ⟨hl, hr⟩ := List.append_eq_nil_iff.mp hnil
    obtain ⟨hv₀, hv₁, hv⟩ := h.zero hl
    obtain ⟨hw₀, hw₁, hw⟩ := h'.zero hr
    rw [hv₀, hv₁, hv, hw₀, hw₁, hw, add_zero]
    exact ⟨rfl, rfl, rfl⟩
  same hnone := by
    obtain ⟨hl, hr⟩ := List.forall_mem_append.mp hnone
    obtain ⟨hv₀, hv₁⟩ := h.same hl
    obtain ⟨hw₀, hw₁⟩ := h'.same hr
    rw [hv₀, hv₁, hw₀, hw₁]
    exact ⟨rfl, rfl⟩
  mixed := by
    rw [h.mixed, h'.mixed]
    ring

/-- Only whether there are summands, and decision variables in them, matters. -/
theorem congr (h : MixedValues t left v₀ v₁ v) (hnil : right = [] → left = [])
    (hnone : (∀ s ∈ right, s.decision? = none) → ∀ s ∈ left, s.decision? = none) :
    MixedValues t right v₀ v₁ v :=
  ⟨fun hr => h.zero (hnil hr), fun hr => h.same (hnone hr), h.mixed⟩

/-- Values under two answers of a query add up. -/
theorem add (h : MixedValues t ss v₀ v₁ v) (h' : MixedValues t ss w₀ w₁ w) :
    MixedValues t ss (v₀ + w₀) (v₁ + w₁) (v + w) :=
  (h.append h').congr (fun hnil => by rw [hnil]; rfl) fun hnone =>
    List.forall_mem_append.mpr ⟨hnone, hnone⟩

/-- Each summand of one list is multiplied with each of the other. -/
theorem exists_product {l r : Summand ℚ} (h : Expr.products left right = .ok ss) (hl : l ∈ left)
    (hr : r ∈ right) : ∃ s ∈ ss, l.product r = .ok s := by
  have hpairs : List.Forall₂ (fun p s => p.1.product p.2 = .ok s)
      (left.flatMap fun l => right.map (l, ·)) ss := mapM_eq_ok_iff.mp h
  exact exists_of_forall₂_left hpairs (x := (l, r))
    (List.mem_flatMap.mpr ⟨l, hl, List.mem_map_of_mem hr⟩)

/-- Of two expressions that are multiplied, one has no decision variables. -/
theorem decision?_eq_none_of_products (h : Expr.products left right = .ok ss) :
    (∀ l ∈ left, l.decision? = none) ∨ ∀ r ∈ right, r.decision? = none := by
  by_contra hboth
  push Not at hboth
  obtain ⟨⟨l, hl, hdl⟩, r, hr, hdr⟩ := hboth
  obtain ⟨s, -, hs⟩ := exists_product h hl hr
  exact (Summand.decision?_eq_none_of_product hs).elim hdl hdr

/-- **Values of two expressions multiply to values of their product**, if the product of the summands is
not refused: then the decision variables are all on one side. -/
theorem mul (h : MixedValues t left v₀ v₁ v) (h' : MixedValues t right w₀ w₁ w)
    (hprod : Expr.products left right = .ok ss) :
    MixedValues t ss (v₀ * w₀) (v₁ * w₁) (v * w) := by
  -- what expands to nothing is zero, so then it does not matter what is multiplied with it
  by_cases hleft : left = []
  · obtain ⟨rfl, rfl, rfl⟩ := h.zero hleft
    simp only [zero_mul]
    exact zeros t ss
  by_cases hright : right = []
  · obtain ⟨rfl, rfl, rfl⟩ := h'.zero hright
    simp only [mul_zero]
    exact zeros t ss
  obtain ⟨l, hl⟩ := List.exists_mem_of_ne_nil left hleft
  obtain ⟨r, hr⟩ := List.exists_mem_of_ne_nil right hright
  refine ⟨fun hnil => ?_, fun hnone => ?_, ?_⟩
  · obtain ⟨s, hs, -⟩ := exists_product hprod hl hr
    rw [hnil] at hs
    exact absurd hs List.not_mem_nil
  · have hnone' : ∀ l ∈ left, ∀ r ∈ right, l.decision? = none ∧ r.decision? = none := by
      intro l hl r hr
      obtain ⟨s, hs, hprod⟩ := exists_product hprod hl hr
      exact (Summand.decision?_product_eq_none_iff hprod).mp (hnone s hs)
    obtain ⟨hv₀, hv₁⟩ := h.same fun l' hl' => (hnone' l' hl' r hr).1
    obtain ⟨hw₀, hw₁⟩ := h'.same fun r' hr' => (hnone' l hl r' hr').2
    rw [hv₀, hv₁, hw₀, hw₁]
    exact ⟨rfl, rfl⟩
  · rcases decision?_eq_none_of_products hprod with hnone | hnone
    · obtain ⟨hv₀, hv₁⟩ := h.same hnone
      rw [h'.mixed, hv₀, hv₁]
      ring
    · obtain ⟨hw₀, hw₁⟩ := h'.same hnone
      rw [h.mixed, hw₀, hw₁]
      ring

/-- Nesting in a query keeps the number of summands and which of them have decision variables. -/
theorem nest {q : Query ℚ} (h : MixedValues t left v₀ v₁ v)
    (hnest : List.Forall₂ (fun s u => (Summand.ofQuery q).nest s = .ok u) left ss) :
    MixedValues t ss v₀ v₁ v := by
  refine h.congr (fun hnil => ?_) ?_
  · rw [hnil, List.forall₂_nil_right_iff] at hnest
    exact hnest
  · exact (forall_mem_iff_of_forall₂ hnest
      fun s _ u hu => (Summand.decision?_nest_eq_none_iff hu).symm).mpr

end MixedValues

namespace Expr

open Summand

variable {t : ℚ} {i₀ i₁ i : Interpretation ℚ Id}

/-- What is closed under adding holds of three sums if it holds of the terms. -/
theorem foldlM_add_of_add {α : Type} {P : ℚ → ℚ → ℚ → Prop} {f₀ f₁ f : α → ExceptT ExprError Id ℚ}
    {xs : List α} (hadd : ∀ {v₀ v₁ v w₀ w₁ w}, P v₀ v₁ v → P w₀ w₁ w → P (v₀ + w₀) (v₁ + w₁) (v + w))
    (hterms : ∀ x ∈ xs, ∀ {v₀ v₁ v}, f₀ x = .ok v₀ → f₁ x = .ok v₁ → f x = .ok v → P v₀ v₁ v)
    {a₀ a₁ a r₀ r₁ r : ℚ} (ha : P a₀ a₁ a)
    (h₀ : xs.foldlM (fun total x => do return total + (← f₀ x)) a₀ = .ok r₀)
    (h₁ : xs.foldlM (fun total x => do return total + (← f₁ x)) a₁ = .ok r₁)
    (h : xs.foldlM (fun total x => do return total + (← f x)) a = .ok r) : P r₀ r₁ r := by
  induction xs generalizing a₀ a₁ a with
  | nil =>
    obtain rfl := Except.ok.inj h₀
    obtain rfl := Except.ok.inj h₁
    obtain rfl := Except.ok.inj h
    exact ha
  | cons x xs ih =>
    obtain ⟨hx, hxs⟩ := List.forall_mem_cons.mp hterms
    obtain ⟨v₀, hv₀, h₀⟩ := foldlM_add_cons_eq_ok_iff.mp h₀
    obtain ⟨v₁, hv₁, h₁⟩ := foldlM_add_cons_eq_ok_iff.mp h₁
    obtain ⟨v, hv, h⟩ := foldlM_add_cons_eq_ok_iff.mp h
    exact ih hxs (hadd ha (hx hv₀ hv₁ hv)) h₀ h₁ h

/-- The values of an atom are mixed when it is a decision variable, and the same otherwise. -/
theorem mixedValues_atom (hmix : Interpretation.Mixes t i₀ i₁ i) {a : Atom ℚ} {ss : List (Summand ℚ)}
    (hss : (atom a).expand = .ok ss) {b : Binding ℚ} {v₀ v₁ v : ℚ}
    (h₀ : (atom a).evaluate i₀ b = .ok v₀) (h₁ : (atom a).evaluate i₁ b = .ok v₁)
    (h : (atom a).evaluate i b = .ok v) : MixedValues t ss v₀ v₁ v := by
  rw [expand] at hss
  split at hss
  · cases hss
  obtain rfl := Except.ok.inj hss
  obtain ⟨g, hg, h₀⟩ := exceptT_bind_eq_ok_iff.mp h₀
  obtain ⟨g₁, hg₁, h₁⟩ := exceptT_bind_eq_ok_iff.mp h₁
  obtain ⟨g', hg', h⟩ := exceptT_bind_eq_ok_iff.mp h
  obtain rfl : g = g₁ := Except.ok.inj (hg.symm.trans hg₁)
  obtain rfl : g = g' := Except.ok.inj (hg.symm.trans hg')
  have hground := (groundAtom_eq_ok_iff.mp (liftExcept_eq_ok_iff.mp hg)).2
  -- the interpretations are told apart by the ground atom, and the summand by the written one
  have hkind : g.isDecision = a.isDecision :=
    congrArg PredicateTemplate.decision (Atom.template_of_groundAt hground)
  cases hdec : a.isDecision with
  | false =>
    rw [hdec] at hkind
    rw [hmix.value₀ g hkind] at h₀
    rw [hmix.value₁ g hkind] at h₁
    obtain rfl := Except.ok.inj (h₀.symm.trans h)
    obtain rfl := Except.ok.inj (h₁.symm.trans h)
    exact .known t _ _
  | true =>
    refine ⟨fun hnil => absurd hnil (List.cons_ne_nil _ _), fun hnone => ?_, ?_⟩
    · have hnone := decision?_eq_none_iff.mp (hnone _ (List.mem_singleton_self _)) (.atom a)
        (List.mem_singleton_self _)
      rw [Factor.decision?, hdec] at hnone
      cases hnone
    · exact hmix.decision g (Atom.isGround_of_groundAt hground) (hkind.trans hdec) h₀ h₁ h

mutual

/-- **The values of an expression are values of its summands.** -/
theorem mixedValues_evaluate (hmix : Interpretation.Mixes t i₀ i₁ i) :
    (e : Expr ℚ) → ∀ {ss}, e.expand = .ok ss → ∀ {b v₀ v₁ v}, e.evaluate i₀ b = .ok v₀ →
      e.evaluate i₁ b = .ok v₁ → e.evaluate i b = .ok v → MixedValues t ss v₀ v₁ v
  | constant c, ss, hss, b, v₀, v₁, v, h₀, h₁, h => by
    obtain rfl := Except.ok.inj hss
    obtain rfl := Except.ok.inj h₀
    obtain rfl := Except.ok.inj h₁
    obtain rfl := Except.ok.inj h
    exact .known t _ _
  | symbol s, ss, hss, b, v₀, v₁, v, h₀, h₁, h => by
    obtain rfl := Except.ok.inj hss
    obtain rfl := Except.ok.inj (h₀.symm.trans h)
    obtain rfl := Except.ok.inj (h₁.symm.trans h)
    exact .known t _ _
  | atom a, ss, hss, b, v₀, v₁, v, h₀, h₁, h => mixedValues_atom hmix hss h₀ h₁ h
  | add es, ss, hss, b, v₀, v₁, v, h₀, h₁, h =>
    mixedValues_evaluateSum hmix es hss (.zeros t []) h₀ h₁ h
  | mul es, ss, hss, b, v₀, v₁, v, h₀, h₁, h =>
    mixedValues_evaluateProduct hmix es hss (.known t _ 1) h₀ h₁ h
  | sum q body, ss, hss, b, v₀, v₁, v, h₀, h₁, h => by
    obtain ⟨inner, hbody, hss⟩ := bind_eq_ok_iff.mp hss
    obtain ⟨ts, hts, h⟩ := exceptT_bind_eq_ok_iff.mp h
    obtain ⟨ts₀, hts₀, h₀⟩ := exceptT_bind_eq_ok_iff.mp h₀
    obtain ⟨ts₁, hts₁, h₁⟩ := exceptT_bind_eq_ok_iff.mp h₁
    -- all three interpretations list the same answers
    rw [hmix.answers₀] at hts₀
    rw [hmix.answers₁] at hts₁
    obtain rfl := Except.ok.inj (hts₀.symm.trans hts)
    obtain rfl := Except.ok.inj (hts₁.symm.trans hts)
    have hinner : MixedValues t inner v₀ v₁ v :=
      foldlM_add_of_add MixedValues.add
        (fun tuple _ _ _ _ h₀ h₁ h => mixedValues_evaluate hmix body hbody h₀ h₁ h)
        (.zeros t inner) h₀ h₁ h
    exact hinner.nest (mapM_eq_ok_iff.mp hss)

theorem mixedValues_evaluateSum (hmix : Interpretation.Mixes t i₀ i₁ i) :
    (es : List (Expr ℚ)) → ∀ {left ss}, expandTerms es = .ok ss → ∀ {b a₀ a₁ a v₀ v₁ v},
      MixedValues t left a₀ a₁ a → evaluateSum i₀ b a₀ es = .ok v₀ →
        evaluateSum i₁ b a₁ es = .ok v₁ → evaluateSum i b a es = .ok v →
          MixedValues t (left ++ ss) v₀ v₁ v
  | [], left, ss, hss, b, a₀, a₁, a, v₀, v₁, v, ha, h₀, h₁, h => by
    obtain rfl := Except.ok.inj hss
    obtain rfl := Except.ok.inj h₀
    obtain rfl := Except.ok.inj h₁
    obtain rfl := Except.ok.inj h
    rw [List.append_nil]
    exact ha
  | e :: es, left, ss, hss, b, a₀, a₁, a, v₀, v₁, v, ha, h₀, h₁, h => by
    obtain ⟨first, hfirst, hss⟩ := bind_eq_ok_iff.mp hss
    obtain ⟨rest, hrest, hss⟩ := bind_eq_ok_iff.mp hss
    obtain rfl := Except.ok.inj hss
    obtain ⟨x₀, hx₀, h₀⟩ := exceptT_bind_eq_ok_iff.mp h₀
    obtain ⟨x₁, hx₁, h₁⟩ := exceptT_bind_eq_ok_iff.mp h₁
    obtain ⟨x, hx, h⟩ := exceptT_bind_eq_ok_iff.mp h
    rw [← List.append_assoc]
    exact mixedValues_evaluateSum hmix es hrest
      (ha.append (mixedValues_evaluate hmix e hfirst hx₀ hx₁ hx)) h₀ h₁ h

theorem mixedValues_evaluateProduct (hmix : Interpretation.Mixes t i₀ i₁ i) :
    (es : List (Expr ℚ)) → ∀ {left ss}, expandFactors left es = .ok ss → ∀ {b a₀ a₁ a v₀ v₁ v},
      MixedValues t left a₀ a₁ a → evaluateProduct i₀ b a₀ es = .ok v₀ →
        evaluateProduct i₁ b a₁ es = .ok v₁ → evaluateProduct i b a es = .ok v →
          MixedValues t ss v₀ v₁ v
  | [], left, ss, hss, b, a₀, a₁, a, v₀, v₁, v, ha, h₀, h₁, h => by
    obtain rfl := Except.ok.inj hss
    obtain rfl := Except.ok.inj h₀
    obtain rfl := Except.ok.inj h₁
    obtain rfl := Except.ok.inj h
    exact ha
  | e :: es, left, ss, hss, b, a₀, a₁, a, v₀, v₁, v, ha, h₀, h₁, h => by
    obtain ⟨right, hright, hss⟩ := bind_eq_ok_iff.mp hss
    obtain ⟨both, hprod, hss⟩ := bind_eq_ok_iff.mp hss
    obtain ⟨x₀, hx₀, h₀⟩ := exceptT_bind_eq_ok_iff.mp h₀
    obtain ⟨x₁, hx₁, h₁⟩ := exceptT_bind_eq_ok_iff.mp h₁
    obtain ⟨x, hx, h⟩ := exceptT_bind_eq_ok_iff.mp h
    exact mixedValues_evaluateProduct hmix es hss
      (ha.mul (mixedValues_evaluate hmix e hright hx₀ hx₁ hx) hprod) h₀ h₁ h

end

/-- **What the normalizer accepts is linear**: under a mixture of two interpretations the value is the
mixture of the values. -/
theorem evaluate_of_mixes (hmix : Interpretation.Mixes t i₀ i₁ i) {e n : Expr ℚ}
    (hn : e.normalize = .ok n) {b : Binding ℚ} {v₀ v₁ v : ℚ} (h₀ : e.evaluate i₀ b = .ok v₀)
    (h₁ : e.evaluate i₁ b = .ok v₁) (h : e.evaluate i b = .ok v) : v = (1 - t) * v₀ + t * v₁ := by
  obtain ⟨ss, hss, -⟩ := normalize_eq_ok hn
  exact (mixedValues_evaluate hmix e hss h₀ h₁ h).mixed

/-- `x(1) * 0 * x(1) + sum({N | r(N)}, x(N) * N)`, where the zero is an empty sum: the product is accepted
since it expands to nothing. -/
def squareTimesNothing : Expr ℚ :=
  add [
    mul [atom ⟨⟨"x", 1, .numeric, true⟩, [.const (.integer 1)]⟩, add [],
      atom ⟨⟨"x", 1, .numeric, true⟩, [.const (.integer 1)]⟩],
    sum (.ofSymbols [⟨"N"⟩] (.atom ⟨⟨"r", 1, .boolean, false⟩, [.var ⟨"N"⟩]⟩))
      (mul [atom ⟨⟨"x", 1, .numeric, true⟩, [.var ⟨"N"⟩]⟩, symbol ⟨"N"⟩])]

/-- Decision variables at 6 and at 9 give 18 and 27; at 7, a third of the way, they give 21. -/
theorem evaluate_squareTimesNothing_of_mixes :
    let valued (x : ℚ) := Interpretation.listing [.integer 1, .integer 2] (fun _ => true) fun a =>
      .ok (if a.isDecision then x else 5)
    Interpretation.Mixes (1 / 3) (valued 6) (valued 9) (valued 7)
      ∧ squareTimesNothing.normalize.toOption.isSome = true
      ∧ squareTimesNothing.evaluate (valued 6) .empty = .ok 18
      ∧ squareTimesNothing.evaluate (valued 9) .empty = .ok 27
      ∧ squareTimesNothing.evaluate (valued 7) .empty = .ok 21
      ∧ (21 : ℚ) = (1 - 1 / 3) * 18 + 1 / 3 * 27 := by
  intro valued
  have hmix : Interpretation.Mixes (1 / 3) (valued 6) (valued 9) (valued 7) := by
    refine ⟨rfl, rfl, fun a ha => ?_, fun a ha => ?_, fun a _ ha v₀ v₁ v h₀ h₁ h => ?_⟩
    · simp [valued, Interpretation.listing, ha]
    · simp [valued, Interpretation.listing, ha]
    · simp only [valued, Interpretation.listing, ha, if_true] at h₀ h₁ h
      obtain rfl := Except.ok.inj h₀
      obtain rfl := Except.ok.inj h₁
      obtain rfl := Except.ok.inj h
      norm_num
  have h₀ : squareTimesNothing.evaluate (valued 6) .empty = .ok 18 := by
    show (_ : Except ExprError ℚ) = .ok 18
    decide +kernel
  have h₁ : squareTimesNothing.evaluate (valued 9) .empty = .ok 27 := by
    show (_ : Except ExprError ℚ) = .ok 27
    decide +kernel
  have h : squareTimesNothing.evaluate (valued 7) .empty = .ok 21 := by
    show (_ : Except ExprError ℚ) = .ok 21
    decide +kernel
  have hsome : squareTimesNothing.normalize.toOption.isSome = true := by decide +kernel
  obtain ⟨n, hn⟩ := exists_eq_ok_of_isSome_toOption hsome
  exact ⟨hmix, hsome, h₀, h₁, h, evaluate_of_mixes hmix hn h₀ h₁ h⟩

end Expr

end RelationalLP
