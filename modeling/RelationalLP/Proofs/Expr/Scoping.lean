import Mathlib
import RelationalLP.Proofs.Expr.Expansion

/-! # Scopes and terms of summands

An expression is scoped when the variables of each formula are bound by its own query, by an enclosing
one, or by the scope around the expression. Its summands are scoped alike, and they mention no terms but
those of the expression and fresh names for its symbols. -/

namespace RelationalLP

variable {K : Type}

/-- The bound symbols and the terms of the formula. -/
def Query.terms (q : Query K) : List (Term K) := q.symbols.map .var ++ q.formula.terms

/-- The variables of the formula are symbols of the query or of a scope. -/
def Query.Scoped (q : Query K) (scope : List Symbol) : Prop :=
  ∀ x ∈ q.formula.occurrences, x ∈ q.symbols ∨ x ∈ scope

instance (q : Query K) (scope : List Symbol) : Decidable (q.Scoped scope) :=
  inferInstanceAs (Decidable (∀ x ∈ q.formula.occurrences, x ∈ q.symbols ∨ x ∈ scope))

/-- A conjoined query is scoped when the second query is scoped under the symbols of the first. -/
theorem Query.Scoped.conjoin {q r : Query ℚ} {scope : List Symbol} (hq : q.Scoped scope)
    (hr : r.Scoped (q.symbols ++ scope)) : (q.conjoin r).Scoped scope := by
  intro x hx
  rw [Query.mem_symbols_conjoin]
  rcases Query.mem_occurrences_of_conjoin hx with hx | hx
  · exact (hq x hx).imp_left .inl
  · rcases hr x hx with hx | hx
    · exact .inl (.inr hx)
    · exact (List.mem_append.mp hx).imp_left .inl

/-- What all terms of two queries satisfy, those of the conjoined query do, too. -/
theorem Query.forall_terms_conjoin {P : Term ℚ → Prop} {q r : Query ℚ} (hq : ∀ t ∈ q.terms, P t)
    (hr : ∀ t ∈ r.terms, P t) : ∀ t ∈ (q.conjoin r).terms, P t := by
  rw [terms, List.forall_mem_append, List.forall_mem_map] at hq hr ⊢
  exact ⟨fun x hx => (mem_symbols_conjoin.mp hx).elim (hq.1 x) (hr.1 x),
    fun t ht => (mem_terms_of_conjoin ht).elim (hq.2 t) (hr.2 t)⟩

namespace Expr

mutual

/-- The terms of an expression: its symbols, and the arguments and sides in it. -/
def terms : Expr K → List (Term K)
  | constant _ => []
  | symbol s => [.var s]
  | atom a => a.arguments
  | add es => termsList es
  | mul es => termsList es
  | sum q body => q.terms ++ terms body

/-- The terms of a list of expressions. -/
def termsList : List (Expr K) → List (Term K)
  | [] => []
  | e :: es => terms e ++ termsList es

end

mutual

/-- **Scoped expressions**: every variable of a formula is bound around it. -/
def Scoped : Expr K → List Symbol → Prop
  | constant _, _ => True
  | symbol _, _ => True
  | atom _, _ => True
  | add es, scope => ScopedList es scope
  | mul es, scope => ScopedList es scope
  | sum q body, scope => q.Scoped scope ∧ Scoped body (q.symbols ++ scope)

/-- Every expression of a list is scoped. -/
def ScopedList : List (Expr K) → List Symbol → Prop
  | [], _ => True
  | e :: es, scope => Scoped e scope ∧ ScopedList es scope

end

mutual

/-- Whether an expression is scoped can be computed. -/
def decidableScoped : (e : Expr K) → (scope : List Symbol) → Decidable (e.Scoped scope)
  | constant _, _ => isTrue trivial
  | symbol _, _ => isTrue trivial
  | atom _, _ => isTrue trivial
  | add es, scope => decidableScopedList es scope
  | mul es, scope => decidableScopedList es scope
  | sum q body, scope =>
    have := decidableScoped body (q.symbols ++ scope)
    inferInstanceAs (Decidable (q.Scoped scope ∧ body.Scoped (q.symbols ++ scope)))

/-- The same for every expression of a list. -/
def decidableScopedList : (es : List (Expr K)) → (scope : List Symbol) → Decidable (ScopedList es scope)
  | [], _ => isTrue trivial
  | e :: es, scope =>
    have := decidableScoped e scope
    have := decidableScopedList es scope
    inferInstanceAs (Decidable (e.Scoped scope ∧ ScopedList es scope))

end

instance (e : Expr K) (scope : List Symbol) : Decidable (e.Scoped scope) := decidableScoped e scope

mutual

/-- An expression is scoped by its free symbols. -/
theorem scoped_of_freeVars :
    (e : Expr ℚ) → ∀ {scope}, (∀ x ∈ e.freeVars, x ∈ scope) → e.Scoped scope
  | constant _, _, _ => trivial
  | symbol _, _, _ => trivial
  | atom _, _, _ => trivial
  | add es, _, h => scopedList_of_freeVars es h
  | mul es, _, h => scopedList_of_freeVars es h
  | sum q body, scope, h => by
    have hall : ∀ x ∈ q.formula.occurrences ++ body.freeVars, x ∈ q.symbols ∨ x ∈ scope := by
      intro x hx
      by_cases hq : x ∈ q.symbols
      · exact .inl hq
      · exact .inr (h x (List.mem_filter.mpr ⟨hx, decide_eq_true hq⟩))
    exact ⟨fun x hx => hall x (List.mem_append_left _ hx), scoped_of_freeVars body fun x hx =>
      List.mem_append.mpr (hall x (List.mem_append_right _ hx))⟩

theorem scopedList_of_freeVars :
    (es : List (Expr ℚ)) → ∀ {scope}, (∀ x ∈ freeVarsList es, x ∈ scope) → ScopedList es scope
  | [], _, _ => trivial
  | e :: es, _, h => ⟨scoped_of_freeVars e fun x hx => h x (List.mem_append_left _ hx),
      scopedList_of_freeVars es fun x hx => h x (List.mem_append_right _ hx)⟩

end

/-! ### Substitution -/

mutual

/-- Substituting symbols of the scope takes them out of it. -/
theorem Scoped.substitute [Scalar K] :
    (e : Expr K) → ∀ {b : Binding K} {scope scope'}, e.Scoped scope →
      (∀ x ∈ scope, (b.get? x).isSome ∨ x ∈ scope') → (e.substitute b).Scoped scope'
  | constant _, _, _, _, _, _ => trivial
  | symbol s, b, _, _, _, _ => by
    rw [Expr.substitute]
    cases (b.get? s).bind Constant.number? with
    | some x => exact trivial
    | none => exact trivial
  | atom _, _, _, _, _, _ => trivial
  | add es, _, _, _, h, hb => ScopedList.substitute es h hb
  | mul es, _, _, _, h, hb => ScopedList.substitute es h hb
  | sum q body, b, scope, scope', h, hb => by
    refine ⟨fun x hx => ?_, Scoped.substitute body h.2 fun x hx => ?_⟩
    · -- a variable that is left in the formula was bound by neither the query nor the binding
      obtain ⟨hocc, hnone⟩ := (Formula.mem_occurrences_substitute q.formula).mp hx
      rw [Binding.get?_without] at hnone
      by_cases hq : x ∈ q.symbols
      · exact .inl hq
      · rw [if_neg hq] at hnone
        rcases hb x ((h.1 x hocc).resolve_left hq) with hsome | hscope
        · rw [hnone] at hsome
          cases hsome
        · exact .inr hscope
    · -- the binding says nothing about symbols of the query
      rw [Binding.get?_without]
      by_cases hq : x ∈ q.symbols
      · exact .inr (List.mem_append_left _ hq)
      · rw [if_neg hq]
        exact (hb x ((List.mem_append.mp hx).resolve_left hq)).imp_right (List.mem_append_right _)

theorem ScopedList.substitute [Scalar K] :
    (es : List (Expr K)) → ∀ {b : Binding K} {scope scope'}, ScopedList es scope →
      (∀ x ∈ scope, (b.get? x).isSome ∨ x ∈ scope') → ScopedList (substituteList b es) scope'
  | [], _, _, _, _, _ => trivial
  | e :: es, _, _, _, h, hb => ⟨Scoped.substitute e h.1 hb, ScopedList.substitute es h.2 hb⟩

end

section Substitution

variable {P : Term K → Prop}

theorem forall_term_substitute {b : Binding K} (hb : ∀ s c, b.get? s = some c → P (.const c))
    {ts : List (Term K)} (hts : ∀ t ∈ ts, P t) : ∀ t ∈ ts.map (Term.substitute b), P t := by
  rw [List.forall_mem_map]
  intro t ht
  cases t with
  | const c => exact hts _ ht
  | var s =>
    rw [Term.substitute]
    cases hs : b.get? s with
    | some c => exact hb s c hs
    | none => exact hts _ ht

theorem forall_get?_without {b : Binding K} (hb : ∀ s c, b.get? s = some c → P (.const c))
    (symbols : List Symbol) : ∀ s c, (b.without symbols).get? s = some c → P (.const c) := by
  intro s c hc
  rw [Binding.get?_without] at hc
  split at hc
  · cases hc
  · exact hb s c hc

mutual

/-- Substitution brings in no terms but constants of the binding. -/
theorem forall_terms_substitute [Scalar K] :
    (e : Expr K) → ∀ {b : Binding K}, (∀ s c, b.get? s = some c → P (.const c)) →
      (∀ t ∈ e.terms, P t) → ∀ t ∈ (e.substitute b).terms, P t
  | constant _, _, _, h => h
  | symbol s, b, _, h => by
    rw [substitute]
    cases (b.get? s).bind Constant.number? with
    | some x => exact fun t ht => absurd ht List.not_mem_nil
    | none => exact h
  | atom a, b, hb, h => forall_term_substitute hb h
  | add es, b, hb, h => forall_termsList_substitute es hb h
  | mul es, b, hb, h => forall_termsList_substitute es hb h
  | sum q body, b, hb, h => by
    rw [terms, Query.terms, List.forall_mem_append, List.forall_mem_append] at h
    rw [substitute, terms, Query.terms, List.forall_mem_append, List.forall_mem_append]
    have hb' := forall_get?_without hb q.symbols
    refine ⟨⟨h.1.1, ?_⟩, forall_terms_substitute body hb' h.2⟩
    rw [Query.substitute, Formula.terms_substitute]
    exact forall_term_substitute hb' h.1.2

theorem forall_termsList_substitute [Scalar K] :
    (es : List (Expr K)) → ∀ {b : Binding K}, (∀ s c, b.get? s = some c → P (.const c)) →
      (∀ t ∈ termsList es, P t) → ∀ t ∈ termsList (substituteList b es), P t
  | [], _, _, h => h
  | e :: es, b, hb, h => by
    rw [termsList, List.forall_mem_append] at h
    rw [substituteList, termsList, List.forall_mem_append]
    exact ⟨forall_terms_substitute e hb h.1, forall_termsList_substitute es hb h.2⟩

end

end Substitution

end Expr

/-! ### Summands -/

/-- The terms of a factor. -/
def Factor.terms : Factor K → List (Term K)
  | .atom a => a.arguments
  | .symbol s => [.var s]

theorem Factor.terms_rename (r : Renaming) (f : Factor K) :
    (f.rename r).terms = f.terms.map (Term.rename r) := by
  cases f <;> rfl

namespace Summand

/-- **Fitting summands**: their terms have some property and their formula is scoped. -/
structure Fits (P : Term ℚ → Prop) (scope : List Symbol) (s : Summand ℚ) : Prop where
  /-- The terms of the query have the property. -/
  query : ∀ q, s.query = some q → ∀ t ∈ q.terms, P t
  /-- The terms of the factors have it. -/
  factors : ∀ f ∈ s.factors, ∀ t ∈ f.terms, P t
  /-- The formula is scoped. -/
  inScope : ∀ q, s.query = some q → q.Scoped scope

/-- A property of terms that fresh names for symbols keep. -/
def KeptByFresh (P : Term ℚ → Prop) : Prop :=
  ∀ used s, P (.var s) → P (.var (fresh used s))

variable {P : Term ℚ → Prop} {scope : List Symbol} {s t u : Summand ℚ}

theorem forall_term_renameBound (hP : KeptByFresh P) (clashes taken : List Symbol) {t : Term ℚ}
    (ht : P t) : P (t.rename (s.boundNames clashes taken)) := by
  cases t with
  | const c => exact ht
  | var x =>
    rw [Term.rename]
    by_cases hx : x ∈ (s.boundNames clashes taken).map Prod.fst
    · have hmem := Renaming.mem_apply hx
      rw [boundNames] at hmem ⊢
      obtain ⟨used, heq⟩ := exists_fresh_of_mem_freshNames hmem
      rw [heq]
      exact hP used x ht
    · rwa [Renaming.apply_of_notMem hx]

/-- Renaming bound symbols keeps a summand fitting. -/
theorem Fits.renameBound (hP : KeptByFresh P) (h : s.Fits P scope) (clashes taken : List Symbol) :
    (s.renameBound clashes taken).Fits P scope := by
  have hr := renamed_renameBound clashes taken s
  have hterm : ∀ {t}, P t → P (t.rename (s.boundNames clashes taken)) := fun ht =>
    forall_term_renameBound hP clashes taken ht
  have hsymbols : ∀ q, s.query = some q → (q.rename (s.boundNames clashes taken)).symbols
      = q.symbols.map (s.boundNames clashes taken).apply := by
    intro q hq
    have hb := hr.bound_eq
    rwa [bound, hr.query_eq, bound, hq] at hb
  refine ⟨fun q' hq' => ?_, fun f' hf' => ?_, fun q' hq' => ?_⟩
  · rw [hr.query_eq, Option.map_eq_some_iff] at hq'
    obtain ⟨q, hq, rfl⟩ := hq'
    have hall := h.query q hq
    rw [Query.terms, List.forall_mem_append, List.forall_mem_map] at hall
    rw [Query.terms, List.forall_mem_append, List.forall_mem_map, hsymbols q hq, List.forall_mem_map,
      Query.rename, Query.ofSymbols, Formula.terms_rename, List.forall_mem_map]
    exact ⟨fun x hx => hterm (hall.1 x hx), fun t ht => hterm (hall.2 t ht)⟩
  · rw [hr.factors_eq] at hf'
    obtain ⟨f, hf, rfl⟩ := List.mem_map.mp hf'
    rw [Factor.terms_rename, List.forall_mem_map]
    exact fun t ht => hterm (h.factors f hf t ht)
  · rw [hr.query_eq, Option.map_eq_some_iff] at hq'
    obtain ⟨q, hq, rfl⟩ := hq'
    have hbound : s.bound = q.symbols := by rw [bound, hq]; rfl
    intro x hx
    rw [Query.rename, Query.ofSymbols, Formula.occurrences_rename, List.mem_map] at hx
    obtain ⟨y, hy, rfl⟩ := hx
    rw [hsymbols q hq]
    -- a symbol of the query goes to the new name, and other symbols stay
    by_cases hyq : y ∈ q.symbols
    · exact .inl (List.mem_map_of_mem hyq)
    · right
      rw [hr.fixes y (by rwa [hbound])]
      exact (h.inScope q hq y hy).resolve_left hyq

/-- A merged summand fits when its parts do, the second one under the symbols of the first. -/
theorem Fits.merge (hs : s.Fits P scope) (ht : t.Fits P (s.bound ++ scope))
    (h : s.merge t = .ok u) : u.Fits P scope := by
  refine ⟨fun p hp => ?_, ?_, fun p hp => ?_⟩
  · rcases merge_query_cases h hp with ⟨hq, -⟩ | ⟨-, hr⟩ | ⟨q, r, hq, hr, rfl⟩
    · exact hs.query p hq
    · exact ht.query p hr
    · exact Query.forall_terms_conjoin (hs.query q hq) (ht.query r hr)
  · obtain rfl := merge_eq_ok h
    exact List.forall_mem_append.mpr ⟨hs.factors, ht.factors⟩
  · rcases merge_query_cases h hp with ⟨hq, -⟩ | ⟨hq, hr⟩ | ⟨q, r, hq, hr, rfl⟩
    · exact hs.inScope p hq
    · have hscope := ht.inScope p hr
      rwa [show s.bound = [] by rw [bound, hq]; rfl] at hscope
    · have hscope := ht.inScope r hr
      rw [show s.bound = q.symbols by rw [bound, hq]; rfl] at hscope
      exact (hs.inScope q hq).conjoin hscope

/-- In a wider scope a summand still fits. -/
theorem Fits.mono (h : s.Fits P scope) {scope' : List Symbol} (hsub : ∀ x ∈ scope, x ∈ scope') :
    s.Fits P scope' :=
  ⟨h.query, h.factors, fun q hq x hx => (h.inScope q hq x hx).imp_right (hsub x)⟩

/-- A product fits when its operands do. -/
theorem Fits.product (hP : KeptByFresh P) (hs : s.Fits P scope) (ht : t.Fits P scope)
    (h : s.product t = .ok u) : u.Fits P scope := by
  rw [Summand.product] at h
  exact (hs.renameBound hP _ _).merge
    ((ht.renameBound hP _ _).mono fun x hx => List.mem_append_right _ hx) h

/-- A nested summand fits when it fits under the symbols of the query. -/
theorem Fits.nest (hP : KeptByFresh P) {q : Query ℚ} (hq : ∀ t ∈ q.terms, P t)
    (hscope : q.Scoped scope) (hs : s.Fits P (q.symbols ++ scope))
    (h : (ofQuery q).nest s = .ok u) : u.Fits P scope := by
  rw [Summand.nest] at h
  have hinner : (s.renameBound (ofQuery q).vars (ofQuery q).vars).Fits P
      ((ofQuery q).bound ++ scope) := hs.renameBound hP _ _
  refine Fits.merge ⟨?_, ?_, ?_⟩ hinner h
  · rintro p hp
    obtain rfl := Option.some.inj hp
    exact hq
  · exact fun f hf => absurd hf List.not_mem_nil
  · rintro p hp
    obtain rfl := Option.some.inj hp
    exact hscope

end Summand

/-! ### Expansion -/

namespace Expr

open Summand

variable {P : Term ℚ → Prop}

/-- A summand of one factor fits. -/
theorem fits_factor {f : Factor ℚ} (hf : ∀ t ∈ f.terms, P t) (scope : List Symbol) :
    ({ Summand.unit with factors := [f] } : Summand ℚ).Fits P scope := by
  refine ⟨fun q hq => ?_, List.forall_mem_singleton.mpr hf, fun q hq => ?_⟩
  · cases hq
  · cases hq

/-- A number fits. -/
theorem fits_number (c : ℚ) (scope : List Symbol) :
    ({ Summand.unit with coefficient := c } : Summand ℚ).Fits P scope := by
  refine ⟨fun q hq => ?_, fun f hf => absurd hf List.not_mem_nil, fun q hq => ?_⟩
  · cases hq
  · cases hq

mutual

/-- **The summands of a scoped expression fit.** -/
theorem fits_of_expand (hP : KeptByFresh P) :
    (e : Expr ℚ) → ∀ {ss scope}, e.expand = .ok ss → (∀ t ∈ e.terms, P t) → e.Scoped scope →
      ∀ s ∈ ss, s.Fits P scope
  | constant q, ss, scope, h, _, _ => by
    obtain rfl := Except.ok.inj h
    exact List.forall_mem_singleton.mpr (fits_number q scope)
  | symbol x, ss, scope, h, ht, _ => by
    obtain rfl := Except.ok.inj h
    exact List.forall_mem_singleton.mpr (fits_factor (f := .symbol x) ht scope)
  | atom a, ss, scope, h, ht, _ => by
    rw [expand] at h
    split at h
    · cases h
    · obtain rfl := Except.ok.inj h
      exact List.forall_mem_singleton.mpr (fits_factor (f := .atom a) ht scope)
  | add es, ss, scope, h, ht, hsc => fits_of_expandTerms hP es h ht hsc
  | mul es, ss, scope, h, ht, hsc =>
    fits_of_expandFactors hP es h (List.forall_mem_singleton.mpr (fits_number 1 scope)) ht hsc
  | sum q body, ss, scope, h, ht, hsc => by
    obtain ⟨inner, hbody, h⟩ := bind_eq_ok_iff.mp h
    have hnest : List.Forall₂ (fun s u => (ofQuery q).nest s = .ok u) inner ss :=
      mapM_eq_ok_iff.mp h
    rw [terms, List.forall_mem_append] at ht
    exact forall_mem_of_forall₂ hnest fun s hs u hu =>
      (fits_of_expand hP body hbody ht.2 hsc.2 s hs).nest hP ht.1 hsc.1 hu

theorem fits_of_expandTerms (hP : KeptByFresh P) :
    (es : List (Expr ℚ)) → ∀ {ss scope}, expandTerms es = .ok ss → (∀ t ∈ termsList es, P t) →
      ScopedList es scope → ∀ s ∈ ss, s.Fits P scope
  | [], ss, scope, h, _, _ => by
    obtain rfl := Except.ok.inj h
    exact fun s hs => absurd hs List.not_mem_nil
  | e :: es, ss, scope, h, ht, hsc => by
    obtain ⟨first, hfirst, h⟩ := bind_eq_ok_iff.mp h
    obtain ⟨rest, hrest, h⟩ := bind_eq_ok_iff.mp h
    obtain rfl := Except.ok.inj h
    rw [termsList, List.forall_mem_append] at ht
    exact List.forall_mem_append.mpr ⟨fits_of_expand hP e hfirst ht.1 hsc.1,
      fits_of_expandTerms hP es hrest ht.2 hsc.2⟩

theorem fits_of_expandFactors (hP : KeptByFresh P) :
    (es : List (Expr ℚ)) → ∀ {left ss scope}, expandFactors left es = .ok ss →
      (∀ s ∈ left, s.Fits P scope) → (∀ t ∈ termsList es, P t) → ScopedList es scope →
      ∀ s ∈ ss, s.Fits P scope
  | [], left, ss, scope, h, hl, _, _ => by
    obtain rfl := Except.ok.inj h
    exact hl
  | e :: es, left, ss, scope, h, hl, ht, hsc => by
    obtain ⟨right, hright, h⟩ := bind_eq_ok_iff.mp h
    obtain ⟨both, hprod, h⟩ := bind_eq_ok_iff.mp h
    rw [termsList, List.forall_mem_append] at ht
    have hr := fits_of_expand hP e hright ht.1 hsc.1
    refine fits_of_expandFactors hP es h ?_ ht.2 hsc.2
    refine forall_mem_of_forall₂ (mapM_eq_ok_iff.mp hprod) fun p hp s hs => ?_
    obtain ⟨l, hl', hp⟩ := List.mem_flatMap.mp hp
    obtain ⟨r, hr', rfl⟩ := List.mem_map.mp hp
    exact (hl l hl').product hP (hr r hr') hs

end

/-- The nonzero summands of a scoped expression fit. -/
theorem fits_of_summands (hP : KeptByFresh P) {e : Expr ℚ} {ss : List (Summand ℚ)}
    {scope : List Symbol} (h : e.summands = .ok ss) (ht : ∀ t ∈ e.terms, P t) (hsc : e.Scoped scope) :
    ∀ s ∈ ss, s.Fits P scope := by
  obtain ⟨all, hall, rfl⟩ := summands_eq_ok h
  exact fun s hs => fits_of_expand hP e hall ht hsc s (List.mem_of_mem_filter hs)

end Expr

end RelationalLP
