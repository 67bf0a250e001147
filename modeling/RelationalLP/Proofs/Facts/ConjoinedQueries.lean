import Mathlib
import RelationalLP.Number.Double
import RelationalLP.Proofs.Expr.BoundSymbols
import RelationalLP.Proofs.Facts.SatisfyingAssignments
import RelationalLP.Proofs.Logic.ExactSimplification

/-! # Conjoined queries

A summand under an enclosing query is asked for in one go: its bound symbols are renamed apart from the
symbols of the enclosing query, and both formulas are conjoined. Main statement: the answers of the
conjoined query over an answer `t` of the enclosing one are those of the query of the summand with `t` put
in for the enclosing symbols. -/

namespace RelationalLP

variable {K : Type}

/-! ### Domains -/

namespace Domain

variable {D : Domain K}

/-- Renaming brings no constants in. -/
theorem Knows.rename {f : Formula K} (hf : D.Knows f.terms) (r : Renaming) :
    D.Knows (f.rename r).terms := by
  intro c hc
  rw [Formula.terms_rename] at hc
  obtain ⟨x, hx, heq⟩ := List.mem_map.mp hc
  cases x with
  | var s => cases heq
  | const d =>
    cases heq
    exact hf c hx

/-- Substitution brings no constants in but those of the binding. -/
theorem Knows.substitute {f : Formula K} (hf : D.Knows f.terms) {b : Binding K}
    (hb : D.Inside b.get?) : D.Knows (f.substitute b).terms := by
  rw [Formula.terms_substitute]
  exact hb.knows_substitute hf

end Domain

/-! ### Symbols taken apart -/

namespace Query

variable {q r : Query K} {v w : Valuation K} {ρ : Renaming} {t u : Tuple K}

/-- **A renaming that takes a query apart from another one**: the symbols of the query get different
names, which no symbol and no variable of the other query bears and no other variable of the query
itself. -/
structure TakesApart (ρ : Renaming) (q r : Query K) : Prop where
  /-- Only symbols of the query are renamed. -/
  fixes : ∀ x ∉ r.symbols, ρ.apply x = x
  /-- Different symbols have different names. -/
  inj : ∀ x ∈ r.symbols, ∀ y ∈ r.symbols, ρ.apply x = ρ.apply y → x = y
  /-- The new names are no symbols of the other query. -/
  symbols : ∀ x ∈ r.symbols, ρ.apply x ∉ q.symbols
  /-- The new names are no variables of the other query. -/
  occurrences : ∀ x ∈ r.symbols, ρ.apply x ∉ q.formula.occurrences
  /-- The new names are no other variables of the query. -/
  kept : ∀ x ∈ r.symbols, ρ.apply x ∈ r.formula.occurrences → ρ.apply x ∈ r.symbols

namespace TakesApart

theorem symbols_rename (h : TakesApart ρ q r) : (r.rename ρ).symbols = r.symbols.map ρ.apply :=
  Summand.symbols_rename h.inj

/-- The valuation of one query and of the other, put together: the symbols and variables of the first one
keep their constants, the new names read the answer of the second one. -/
def joined (q r : Query K) (ρ : Renaming) (v w : Valuation K) (u : Tuple K) : Valuation K :=
  Valuation.extend (fun x => if x ∈ q.symbols ∨ x ∈ q.formula.occurrences then v x else w x)
    (r.symbols.map ρ.apply) u

theorem joined_of_mem (h : TakesApart ρ q r) {x : Symbol}
    (hx : x ∈ q.symbols ∨ x ∈ q.formula.occurrences) : joined q r ρ v w u x = v x := by
  rw [joined, Valuation.extend_of_notMem, if_pos hx]
  intro hmem
  obtain ⟨y, hy, rfl⟩ := List.mem_map.mp hmem
  exact hx.elim (h.symbols y hy) (h.occurrences y hy)

theorem inside_joined {D : Domain K} (hv : D.Inside v) (hw : D.Inside w) (hu : ∀ c ∈ u, c ∈ D) :
    D.Inside (joined q r ρ v w u) := by
  refine Domain.Inside.extend (fun x c hx => ?_) _ hu
  beta_reduce at hx
  split at hx
  · exact hv x c hx
  · exact hw x c hx

theorem reads_joined (h : TakesApart ρ q r) (hu : w.Reads r.symbols u) :
    ((joined q r ρ v w u).renamed ρ).Reads r.symbols u := by
  have hnodup : (r.symbols.map ρ.apply).Nodup := r.nodup.map_on h.inj
  refine Valuation.reads_map.mp (Valuation.reads_extend _ hnodup ?_)
  rw [List.length_map]
  exact hu.length_eq.symm

/-- Put together, a variable of the second query has its constant there, or the one that the answer of
the first query puts in. -/
theorem joined_eq_filled (h : TakesApart ρ q r) (ht : v.Reads q.symbols t) (hu : w.Reads r.symbols u)
    {x : Symbol} (hx : x ∈ r.formula.occurrences)
    (hshared : x ∈ q.formula.occurrences → x ∈ q.symbols ∨ x ∈ r.symbols) :
    (joined q r ρ v w u).renamed ρ x
      = Valuation.filled ((Binding.ofAnswer q.symbols t).without r.symbols).get? w x := by
  rw [Valuation.filled, Binding.get?_without]
  by_cases hr : x ∈ r.symbols
  · rw [if_pos hr, Option.none_or]
    exact (h.reads_joined hu).eq_of_mem hu x hr
  · rw [if_neg hr, Valuation.renamed, h.fixes x hr, Binding.get?_ofAnswer]
    by_cases hq : x ∈ q.symbols
    · rw [h.joined_of_mem (.inl hq)]
      have hread := ht.eq_of_mem (Valuation.reads_extend .unbound q.nodup ht.length_eq.symm) x hq
      obtain ⟨c, -, hc⟩ := exists_of_forall₂_left ht hq
      rw [← hread, hc, Option.some_or]
    · -- no symbol of either query, so no variable of the first one
      have hscope : ¬ (x ∈ q.symbols ∨ x ∈ q.formula.occurrences) := by tauto
      have hname : x ∉ r.symbols.map ρ.apply := by
        intro hmem
        obtain ⟨y, hy, rfl⟩ := List.mem_map.mp hmem
        exact hr (h.kept y hy hx)
      rw [joined, Valuation.extend_of_notMem _ _ hname, if_neg hscope,
        Valuation.extend_of_notMem _ _ hq, Valuation.unbound, Option.none_or]

end TakesApart

end Query

variable [Scalar K]

/-- Constants that are told apart by value cover the facts that they occur in. -/
theorem Constant.TellApart.covers {cs : List (Constant K)} (h : TellApart cs) {fb : FactBase K}
    (hfb : ∀ c ∈ fb.constants, c ∈ cs) : Domain.Covers {x | x ∈ cs} fb where
  cells := fun _ _ hrow _ hc => hfb _ (FactBase.mem_constants hrow hc)
  reflexive := h.valued
  discrete := h.distinct

/-- **The constants of the facts and of two formulas** make a domain for both, when they are told apart by
value. -/
theorem Constant.TellApart.exists_domain {fb : FactBase K} {g f : Formula K}
    (h : TellApart (fb.constants ++ g.constants ++ f.constants)) :
    ∃ D : Domain K, D.Covers fb ∧ D.Knows g.terms ∧ D.Knows f.terms :=
  ⟨{x | x ∈ fb.constants ++ g.constants ++ f.constants},
    h.covers fun _ hc => List.mem_append_left _ (List.mem_append_left _ hc),
    fun _ hc => List.mem_append_left _ (List.mem_append_right _ (Formula.mem_constants hc)),
    fun _ hc => List.mem_append_right _ (Formula.mem_constants hc)⟩

/-! ### Truth of conjoined queries -/

/-- A simplified conjunction is true when all its parts are, simplified. -/
theorem Formula.kleene_simplify_conj {fs : List (Formula K)} {v : Valuation K}
    {truthOf : Atom K → Bool} : (conj fs).simplify.kleene v truthOf = some true
    ↔ ∀ f ∈ fs, f.simplify.kleene v truthOf = some true := by
  rw [simplify, Connective.kleene_join]
  refine (Connective.combine_eq_not_decisive (o := .conj)).trans ?_
  induction fs with
  | nil => simp [simplifyList]
  | cons f fs ih =>
    rw [simplifyList, List.map_cons, List.forall_mem_cons, List.forall_mem_cons, ih]
    rfl

namespace Query

variable {q r : Query K} {v w : Valuation K} {truthOf : Atom K → Bool} {ρ : Renaming}

/-- A conjoined formula is true when both sides are, all of them simplified. -/
theorem kleene_simplify_conjoin : (q.conjoin r).formula.simplify.kleene v truthOf = some true
    ↔ q.formula.simplify.kleene v truthOf = some true
      ∧ r.formula.simplify.kleene v truthOf = some true := by
  show (Formula.conj [q.formula, r.formula]).simplify.simplify.kleene v truthOf = some true ↔ _
  rw [Formula.kleene_simplify_simplify, Formula.kleene_simplify_conj, List.forall_mem_cons,
    List.forall_mem_singleton]

/-- The simplified formula of a renamed query has the truth value of the formula after the renaming. -/
theorem kleene_simplify_rename (h : r.formula.Comparable .unbound) :
    (r.rename ρ).formula.simplify.kleene v truthOf = r.formula.kleene (v.renamed ρ) truthOf := by
  show (r.formula.rename ρ).simplify.kleene v truthOf = _
  rw [Formula.kleene_simplify_eq _ (Formula.comparable_rename.mpr h), Formula.kleene_rename]

/-- The simplified formula of a query with parameters put in has the truth value of the formula under the
valuation that they fill up. -/
theorem kleene_simplify_substitute {b : Binding K}
    (h : r.formula.Comparable (b.without r.symbols).get?) :
    (r.substitute b).formula.simplify.kleene w truthOf
      = r.formula.kleene (Valuation.filled (b.without r.symbols).get? w) truthOf := by
  have hcompare : (r.formula.substitute (b.without r.symbols)).Comparable .unbound := by
    rwa [Formula.comparable_substitute, Valuation.filled_unbound]
  show (r.formula.substitute (b.without r.symbols)).simplify.kleene w truthOf = _
  rw [Formula.kleene_simplify_eq _ hcompare, Formula.kleene_substitute]

/-- Renaming the bound symbols of a summand apart from a query takes its query apart from it. -/
theorem takesApart_boundNames (q : Query K) {s : Summand K} (hs : s.query = some r) :
    TakesApart (s.boundNames (q.symbols ++ q.formula.vars) (q.symbols ++ q.formula.vars)) q r := by
  set scope := q.symbols ++ q.formula.vars
  have hbound : s.bound = r.symbols := by rw [Summand.bound, hs]; rfl
  have hrenamed := Summand.renamed_renameBound scope scope s
  have hvars : ∀ x ∈ r.symbols, x ∈ s.vars := fun x hx =>
    Summand.bound_subset_vars (hbound.symm ▸ hx)
  have hscope : ∀ x ∈ r.symbols, (s.boundNames scope scope).apply x ∉ scope := by
    intro x hx
    have hnew : (s.boundNames scope scope).apply x ∈ (s.renameBound scope scope).bound := by
      rw [hrenamed.bound_eq, hbound]
      exact List.mem_map_of_mem hx
    exact Summand.notMem_of_mem_bound_renameBound hnew
  refine ⟨fun x hx => hrenamed.fixes x (hbound ▸ hx), fun x hx y hy =>
    hrenamed.inj x (hvars x hx) y (hvars y hy), fun x hx hq => hscope x hx (List.mem_append_left _ hq),
    fun x hx hq => hscope x hx (List.mem_append_right _ (Formula.mem_vars.mpr hq)), fun x hx hocc => ?_⟩
  -- a fresh name is no variable of the summand
  have hcases : (x ∉ scope ∧ (s.boundNames scope scope).apply x = x)
      ∨ (s.boundNames scope scope).apply x ∉ s.vars ++ scope ++ scope :=
    Summand.apply_boundNames_cases (hbound.symm ▸ hx)
  rcases hcases with ⟨-, heq⟩ | hfresh
  · rwa [heq]
  · have hmem : (s.boundNames scope scope).apply x ∈ s.vars :=
      Summand.mem_vars.mpr (.inr (.inl ⟨r, hs, hocc⟩))
    exact absurd (List.mem_append_left _ (List.mem_append_left _ hmem)) hfresh

namespace TakesApart

variable {t u : Tuple K}

/-- The conjoined query has the symbols of the other query and then the new names. -/
theorem symbols_conjoin (h : TakesApart ρ q r) :
    (q.conjoin (r.rename ρ)).symbols = q.symbols ++ r.symbols.map ρ.apply := by
  rw [Query.symbols_conjoin, h.symbols_rename]
  intro x hx
  rw [h.symbols_rename] at hx
  obtain ⟨y, hy, rfl⟩ := List.mem_map.mp hx
  exact h.symbols y hy

/-- **A true valuation of the conjoined query is one of the query with the answer put in.** -/
theorem kleene_substitute_of_conjoin (h : TakesApart ρ q r) (ht : v.Reads q.symbols t)
    (hcompare : r.formula.Comparable ((Binding.ofAnswer q.symbols t).without r.symbols).get?)
    (hv : (q.conjoin (r.rename ρ)).formula.simplify.kleene v truthOf = some true) :
    (r.substitute (.ofAnswer q.symbols t)).formula.simplify.kleene (v.renamed ρ) truthOf
      = some true := by
  have hempty : r.formula.Comparable .unbound := hcompare.anti fun _ _ hs => by cases hs
  have htrue := (kleene_simplify_conjoin.mp hv).2
  rw [kleene_simplify_rename hempty] at htrue
  -- the answer says nothing new, as the valuation reads it and its symbols keep their names
  have hext : (v.renamed ρ).Extends ((Binding.ofAnswer q.symbols t).without r.symbols).get? := by
    intro x c hx
    rw [Binding.get?_without] at hx
    split at hx
    · cases hx
    · rename_i hr
      rw [Binding.get?_ofAnswer] at hx
      rw [Valuation.renamed, h.fixes x hr]
      exact Valuation.extends_extend q.nodup ht x c hx
  rw [kleene_simplify_substitute hcompare, hext.filled_eq, htrue]

/-- **True valuations of both queries make one of the conjoined query.** -/
theorem kleene_conjoin_joined (h : TakesApart ρ q r)
    (hshared : ∀ x ∈ r.formula.occurrences, x ∈ q.formula.occurrences →
      x ∈ q.symbols ∨ x ∈ r.symbols)
    (ht : v.Reads q.symbols t) (hu : w.Reads r.symbols u)
    (hcompare : r.formula.Comparable ((Binding.ofAnswer q.symbols t).without r.symbols).get?)
    (hv : q.formula.simplify.kleene v truthOf = some true)
    (hw : (r.substitute (.ofAnswer q.symbols t)).formula.simplify.kleene w truthOf = some true) :
    (q.conjoin (r.rename ρ)).formula.simplify.kleene (joined q r ρ v w u) truthOf = some true := by
  have hempty : r.formula.Comparable .unbound := hcompare.anti fun _ _ hs => by cases hs
  rw [kleene_simplify_substitute hcompare] at hw
  rw [kleene_simplify_conjoin, kleene_simplify_rename hempty]
  constructor
  · rw [← hv]
    refine Formula.kleene_congr _ fun x hx => h.joined_of_mem (.inr ?_)
    exact Formula.mem_occurrences_of_simplify _ hx
  · rw [← hw]
    exact Formula.kleene_congr _ fun x hx => h.joined_eq_filled ht hu hx (hshared x hx)

/-- **Where the conjoined query is true over an answer**: some valuation makes it true and reads `t` and
`u` exactly when some valuation makes the query with `t` put in true and reads `u`. -/
theorem exists_conjoin_iff (h : TakesApart ρ q r) {D : Domain K}
    (hshared : ∀ x ∈ r.formula.occurrences, x ∈ q.formula.occurrences →
      x ∈ q.symbols ∨ x ∈ r.symbols)
    (hin : D.Inside v) (ht : v.Reads q.symbols t)
    (hv : q.formula.simplify.kleene v truthOf = some true)
    (hcompare : r.formula.Comparable ((Binding.ofAnswer q.symbols t).without r.symbols).get?) :
    (∃ v' : Valuation K, D.Inside v'
        ∧ (q.conjoin (r.rename ρ)).formula.simplify.kleene v' truthOf = some true
        ∧ v'.Reads (q.conjoin (r.rename ρ)).symbols (t ++ u))
      ↔ ∃ w : Valuation K, D.Inside w
        ∧ (r.substitute (.ofAnswer q.symbols t)).formula.simplify.kleene w truthOf = some true
        ∧ w.Reads r.symbols u := by
  have hlen : t.length = q.symbols.length := ht.length_eq.symm
  rw [h.symbols_conjoin]
  constructor
  · rintro ⟨v', hin', htrue, hread⟩
    obtain ⟨hreadt, hreadu⟩ := (Valuation.reads_append hlen).mp hread
    -- the second query reads its symbols under their new names
    exact ⟨v'.renamed ρ, fun x c hx => hin' _ c hx,
      h.kleene_substitute_of_conjoin hreadt hcompare htrue, Valuation.reads_map.mp hreadu⟩
  · rintro ⟨w, hin', htrue, hread⟩
    -- both valuations are joined: the first query keeps its symbols, the second one has the renamed ones
    have hreadt : (joined q r ρ v w u).Reads q.symbols t :=
      ht.congr fun x hx => h.joined_of_mem (.inl hx)
    exact ⟨joined q r ρ v w u, inside_joined hin hin' (hin'.mem_of_reads hread),
      h.kleene_conjoin_joined hshared ht hread hcompare hv htrue,
      (Valuation.reads_append hlen).mpr ⟨hreadt, Valuation.reads_map.mpr (h.reads_joined hread)⟩⟩

end TakesApart

end Query

/-! ### Answers of conjoined queries -/

namespace FactBase

/-- **A fact base splits a conjoined query at an answer `t`**: with the bound symbols of the summand
renamed apart from the query, the answers of the conjoined query that begin with `t` are `t` followed by
the answers of the query of the summand with `t` put in, whenever both are answered. -/
def SplitsAt (fb : FactBase K) (q : Query K) (s : Summand K) (t : Tuple K) : Prop :=
  ∀ r r' all inner, s.query = some r →
    (s.renameApart (q.symbols ++ q.formula.vars)).query = some r' →
    fb.ask (q.conjoin r').symbols (q.conjoin r').formula none = .ok all →
    fb.ask (r.substitute (.ofAnswer q.symbols t)).symbols
      (r.substitute (.ofAnswer q.symbols t)).formula none = .ok inner →
    (all.filter (t.isPrefixOf ·)).Perm (inner.map (t ++ ·))

/-- **Conjoining a summand under a query is substitution.** The conjoined query splits at every answer of
the query, when the constants are told apart by value, the orders that the answer decides compare, and no
variable occurs in both formulas that neither query binds. -/
theorem ask_conjoin_renameApart (fb : FactBase K) (q : Query K) (s : Summand K) {r : Query K}
    (hr : s.query = some r)
    (hconst : Constant.TellApart (fb.constants ++ q.formula.constants ++ r.formula.constants))
    (hshared : ∀ x ∈ r.formula.vars, x ∈ q.formula.vars → x ∈ q.symbols ∨ x ∈ r.symbols)
    {outer : Answers K} (houter : fb.ask q.symbols q.formula none = .ok outer) {t : Tuple K}
    (ht : t ∈ outer)
    (hcompare : r.formula.Comparable ((Binding.ofAnswer q.symbols t).without r.symbols).get?) :
    fb.SplitsAt q s t := by
  intro r₀ r' all inner hr₀ hr' hall hinner
  obtain rfl : r = r₀ := Option.some.inj (hr.symm.trans hr₀)
  set ρ := s.boundNames (q.symbols ++ q.formula.vars) (q.symbols ++ q.formula.vars)
  have hapart : Query.TakesApart ρ q r := Query.takesApart_boundNames q hr
  obtain rfl : r.rename ρ = r' := by
    have hquery := (Summand.renamed_renameBound (q.symbols ++ q.formula.vars)
      (q.symbols ++ q.formula.vars) s).query_eq
    rw [hr] at hquery
    exact Option.some.inj (hquery.symm.trans hr')
  simp only [Formula.mem_vars] at hshared
  -- all three queries draw from one domain
  obtain ⟨D, hD, hqknown, hrknown⟩ := hconst.exists_domain
  have hconjoined : D.Knows (q.conjoin (r.rename ρ)).formula.terms := fun c hc =>
    (Query.mem_terms_of_conjoin hc).elim (hqknown c) (hrknown.rename ρ c)
  obtain ⟨v, hin, htrue, hread⟩ := (mem_answers_iff hD hqknown houter).mp ht
  have hput : D.Knows (r.substitute (.ofAnswer q.symbols t)).formula.terms := by
    refine hrknown.substitute fun x c hx => ?_
    rw [Binding.get?_without] at hx
    split at hx
    · cases hx
    · rw [Binding.get?_ofAnswer] at hx
      exact hin x c (Valuation.extends_extend q.nodup hread x c hx)
  have hmem : ∀ u, t ++ u ∈ all ↔ u ∈ inner := by
    intro u
    rw [mem_answers_iff hD hconjoined hall, mem_answers_iff hD hput hinner]
    exact hapart.exists_conjoin_iff hshared hin hread htrue hcompare
  refine (List.perm_ext_iff_of_nodup ((collect_eq_ok hall).1.filter _)
    ((collect_eq_ok hinner).1.map (List.append_right_injective t))).mpr fun a => ?_
  rw [List.mem_filter, List.isPrefixOf_iff_prefix, List.mem_map]
  constructor
  · rintro ⟨ha, u, rfl⟩
    exact ⟨u, (hmem u).mp ha, rfl⟩
  · rintro ⟨u, hu, rfl⟩
    exact ⟨(hmem u).mpr hu, List.prefix_append t u⟩

/-- Roads between towns, a price, a size and a shop. -/
def towns : FactBase Double where
  facts := [("road", [.text "a", .text "b"]), ("road", [.text "a", .text "c"]),
    ("price", [.text "d", .integer 1]), ("size", [.integer 5]), ("shop", [.text "a"])]

/-- The towns that a road leaves: `X | road(X, E)`. -/
def leaving : Query Double :=
  .ofSymbols [⟨"X"⟩] (.atom ⟨⟨"road", 2, .boolean, false⟩, [.var ⟨"X"⟩, .var ⟨"E"⟩]⟩)

/-- The sizes: `X | size(X)`. -/
def sizes : Query Double := .ofSymbols [⟨"X"⟩] (.atom ⟨⟨"size", 1, .boolean, false⟩, [.var ⟨"X"⟩]⟩)

/-- The ends of the roads from `X`: `E | road(X, E)`. -/
def ends : Query Double :=
  .ofSymbols [⟨"E"⟩] (.atom ⟨⟨"road", 2, .boolean, false⟩, [.var ⟨"X"⟩, .var ⟨"E"⟩]⟩)

/-- The ends of the roads from `X` under another name: `E_1 | road(X, E_1)`. -/
def otherEnds : Query Double :=
  .ofSymbols [⟨"E_1"⟩] (.atom ⟨⟨"road", 2, .boolean, false⟩, [.var ⟨"X"⟩, .var ⟨"E_1"⟩]⟩)

/-- The end of a road is asked for by the name that the query uses for some end: the conjoined query has
`E_1` in its place. It is answered by `(a, b)` and `(a, c)`, and the query with `a` put in by `b` and `c`. -/
theorem ask_conjoin_renameApart_roads :
    Constant.TellApart (towns.constants ++ leaving.formula.constants ++ ends.formula.constants)
      ∧ (∀ x ∈ ends.formula.vars, x ∈ leaving.formula.vars → x ∈ leaving.symbols ∨ x ∈ ends.symbols)
      ∧ towns.ask leaving.symbols leaving.formula none = .ok [[.text "a"]]
      ∧ ends.formula.Comparable
          ((Binding.ofAnswer leaving.symbols [.text "a"]).without ends.symbols).get?
      ∧ (Summand.renameApart (leaving.symbols ++ leaving.formula.vars) ⟨some ends, 1, []⟩).query
        = some otherEnds
      ∧ towns.ask (leaving.conjoin otherEnds).symbols (leaving.conjoin otherEnds).formula none
        = .ok [[.text "a", .text "b"], [.text "a", .text "c"]]
      ∧ towns.ask (ends.substitute (.ofAnswer leaving.symbols [.text "a"])).symbols
          (ends.substitute (.ofAnswer leaving.symbols [.text "a"])).formula none
        = .ok [[.text "b"], [.text "c"]]
      ∧ ([[.text "a", .text "b"], [.text "a", .text "c"]].filter ([.text "a"].isPrefixOf ·)).Perm
          (([[.text "b"], [.text "c"]] : Answers Double).map ([.text "a"] ++ ·)) := by
  have hconst : Constant.TellApart
      (towns.constants ++ leaving.formula.constants ++ ends.formula.constants) :=
    ⟨by decide +kernel, by decide +kernel⟩
  have hshared : ∀ x ∈ ends.formula.vars, x ∈ leaving.formula.vars →
      x ∈ leaving.symbols ∨ x ∈ ends.symbols := by decide +kernel
  have houter : towns.ask leaving.symbols leaving.formula none = .ok [[.text "a"]] := by
    decide +kernel
  have hcompare : ends.formula.Comparable
      ((Binding.ofAnswer leaving.symbols [.text "a"]).without ends.symbols).get? :=
    fun c hc => absurd hc List.not_mem_nil
  have hrenamed : (Summand.renameApart (leaving.symbols ++ leaving.formula.vars) ⟨some ends, 1, []⟩).query
      = some otherEnds := by rfl
  have hall : towns.ask (leaving.conjoin otherEnds).symbols (leaving.conjoin otherEnds).formula none
      = .ok [[.text "a", .text "b"], [.text "a", .text "c"]] := by decide +kernel
  have hinner : towns.ask (ends.substitute (.ofAnswer leaving.symbols [.text "a"])).symbols
        (ends.substitute (.ofAnswer leaving.symbols [.text "a"])).formula none
      = .ok [[.text "b"], [.text "c"]] := by decide +kernel
  exact ⟨hconst, hshared, houter, hcompare, hrenamed, hall, hinner,
    ask_conjoin_renameApart towns leaving ⟨some ends, 1, []⟩ rfl hconst hshared houter (by decide) hcompare
      ends otherEnds _ _ rfl hrenamed hall hinner⟩

/-- The prices at `E`: `Y | price(E, Y)`. -/
def prices : Query Double :=
  .ofSymbols [⟨"Y"⟩] (.atom ⟨⟨"price", 2, .boolean, false⟩, [.var ⟨"E"⟩, .var ⟨"Y"⟩]⟩)

/-- The shops, under a condition: `Y | shop(Y) & condition`. -/
def shops (condition : Formula Double) : Query Double :=
  .ofSymbols [⟨"Y"⟩]
    (.conj [.atom ⟨⟨"shop", 1, .boolean, false⟩, [.var ⟨"Y"⟩]⟩, condition])

/-- A weight that is undefined, and a shop. -/
def undefinedWeight : FactBase Double where
  facts := [("weight", [.real ⟨0x7ff8000000000000⟩]), ("shop", [.text "a"])]

/-- The weights, twice: `X, Z | weight(X) & Z = X`. -/
def weights : Query Double :=
  .ofSymbols [⟨"X"⟩, ⟨"Z"⟩]
    (.conj [.atom ⟨⟨"weight", 1, .boolean, false⟩, [.var ⟨"X"⟩]⟩,
      .compare ⟨.var ⟨"Z"⟩, .eq, .var ⟨"X"⟩⟩])

/-- A conjoined query does not split where its answers over `t` are not as many as those with `t` put
in. -/
theorem not_splitsAt {fb : FactBase K} {q : Query K} {s : Summand K} {t : Tuple K} (r r' : Query K)
    (all inner : Answers K) (hr : s.query = some r)
    (hr' : (s.renameApart (q.symbols ++ q.formula.vars)).query = some r')
    (hall : fb.ask (q.conjoin r').symbols (q.conjoin r').formula none = .ok all)
    (hinner : fb.ask (r.substitute (.ofAnswer q.symbols t)).symbols
      (r.substitute (.ofAnswer q.symbols t)).formula none = .ok inner)
    (h : (all.filter (t.isPrefixOf ·)).length ≠ inner.length) : ¬ fb.SplitsAt q s t := by
  intro hsplits
  have hperm := hsplits r r' all inner hr hr' hall hinner
  exact h (hperm.length_eq.trans (List.length_map _))

/-- **The conditions of splitting are needed.** A variable `E` that neither query binds is one variable in
the conjoined query, and two in the queries asked apart; a size 5 that a condition compares with 5.0 is
answered as 5.0; the negation of an order between a number and a text is false while it has a variable,
and true once the number is put in; and an equation binds a symbol to an undefined number, which does not
equal itself once it is put in. -/
theorem ask_conjoin_not_splitsAt :
    (towns.ask leaving.symbols leaving.formula none = .ok [[.text "a"]]
        ∧ ¬ towns.SplitsAt leaving ⟨some prices, 1, []⟩ [.text "a"])
      ∧ towns.ask sizes.symbols sizes.formula none = .ok [[.integer 5]]
      ∧ ¬ towns.SplitsAt sizes ⟨some (shops (.compare
          ⟨.var ⟨"X"⟩, .eq, .const (.real ⟨0x4014000000000000⟩)⟩)), 1, []⟩ [.integer 5]
      ∧ ¬ towns.SplitsAt sizes ⟨some (shops (.neg (.compare
          ⟨.var ⟨"X"⟩, .lt, .const (.text "z")⟩))), 1, []⟩ [.integer 5]
      ∧ undefinedWeight.ask weights.symbols weights.formula none
        = .ok [[.real ⟨0x7ff8000000000000⟩, .real ⟨0x7ff8000000000000⟩]]
      ∧ ¬ undefinedWeight.SplitsAt weights
          ⟨some (shops (.compare ⟨.var ⟨"Z"⟩, .eq, .var ⟨"X"⟩⟩)), 1, []⟩
          [.real ⟨0x7ff8000000000000⟩, .real ⟨0x7ff8000000000000⟩] := by
  refine ⟨⟨by decide +kernel, ?_⟩, by decide +kernel, ?_, ?_, by decide +kernel, ?_⟩
  · exact not_splitsAt prices prices [] [[.integer 1]] rfl rfl (by decide +kernel)
      (by decide +kernel) (by decide)
  · exact not_splitsAt _ _ [[.real ⟨0x4014000000000000⟩, .text "a"]] [[.text "a"]] rfl rfl
      (by decide +kernel) (by decide +kernel) (by decide)
  · exact not_splitsAt _ _ [] [[.text "a"]] rfl rfl (by decide +kernel) (by decide +kernel)
      (by decide)
  · exact not_splitsAt _ _
      [[.real ⟨0x7ff8000000000000⟩, .real ⟨0x7ff8000000000000⟩, .text "a"]] [] rfl rfl
      (by decide +kernel) (by decide +kernel) (by decide)

end FactBase

end RelationalLP
