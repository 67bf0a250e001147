import Mathlib
import RelationalLP.Grounding.Blocks
import RelationalLP.Proofs.Expr.ValuePreservation
import RelationalLP.Proofs.Facts.Worlds
import RelationalLP.Proofs.Grounding.Choices
import RelationalLP.Proofs.Grounding.Groundable
import RelationalLP.Proofs.Grounding.Readings
import RelationalLP.Proofs.Grounding.Runs

/-! # Bulk queries

One query for a summand under an outer query: every numeric atom becomes an atom with a value symbol, and
the coefficient is the product of the value symbols. The rows of a successful query are the tuples under
which both formulas are true, each once, with the values of the plain factors wherever these are
needed. -/

namespace RelationalLP

variable {w : World} {fb : FactBase ℚ}

/-! ### What is not false -/

namespace Formula

variable {v u : Valuation ℚ} {truthOf : Atom ℚ → Bool}

/-- A formula whose simplified form is true is not false. -/
theorem ne_false_of_simplify {f : Formula ℚ} (h : f.simplify.kleene v truthOf ≠ some false) :
    f.kleene v truthOf ≠ some false := fun hf => h (kleene_simplify f false hf)

/-- The parts of a conjunction that is not false are not false. -/
theorem ne_false_of_conj {fs : List (Formula ℚ)} (h : (conj fs).kleene v truthOf ≠ some false)
    {f : Formula ℚ} (hf : f ∈ fs) : f.kleene v truthOf ≠ some false := by
  intro hfalse
  refine h ?_
  rw [kleene, kleeneList_eq_map]
  exact (Connective.combine_eq_decisive (o := .conj)).mpr (List.mem_map.mpr ⟨f, hf, hfalse⟩)

/-- What is decided and not false is true. -/
theorem eq_true_of_ne_false {f : Formula ℚ} (h : f.kleene v truthOf ≠ some false)
    (hd : f.kleene v truthOf ≠ none) : f.kleene v truthOf = some true := by
  obtain ⟨x, hx⟩ := Option.ne_none_iff_exists'.mp hd
  cases x with
  | true => exact hx
  | false => exact absurd hx h

/-- A true formula stays true when more symbols are bound. -/
theorem kleene_mono (h : v.Extends u) {f : Formula ℚ} (hf : f.kleene u truthOf = some true) :
    f.kleene v truthOf = some true := by
  obtain ⟨c, hc, hall⟩ := (holds_dnf f false).mpr hf
  exact (holds_dnf f false).mp ⟨c, hc, fun l hl => Literal.kleene_mono h (hall l hl)⟩

end Formula

theorem Query.ne_false_of_conjoin {q r : Query ℚ} {v : Valuation ℚ} {truthOf : Atom ℚ → Bool}
    (h : (q.conjoin r).formula.kleene v truthOf ≠ some false) :
    q.formula.kleene v truthOf ≠ some false ∧ r.formula.kleene v truthOf ≠ some false := by
  have hconj := Formula.ne_false_of_simplify h
  exact ⟨Formula.ne_false_of_conj hconj List.mem_cons_self,
    Formula.ne_false_of_conj hconj (List.mem_cons_of_mem _ List.mem_cons_self)⟩

/-! ### Splitting factors -/

namespace SplitSummand

/-- The symbol that stands for a factor: the symbol itself, or the value symbol of an atom in the
query. -/
def StandsFor (atoms : List (Formula ℚ)) (f : Factor ℚ) (s : Symbol) : Prop :=
  match f with
  | .symbol t => s = t
  | .atom a => .atom (a.withExtra a.template.valueRelation (.var s)) ∈ atoms

theorem StandsFor.mono {atoms atoms' : List (Formula ℚ)} {f : Factor ℚ} {s : Symbol}
    (h : StandsFor atoms f s) (hsub : atoms ⊆ atoms') : StandsFor atoms' f s := by
  cases f with
  | symbol t => exact h
  | atom a => exact hsub h

/-- The symbols of some factors stand for them. -/
theorem standsFor_factorSymbols (fs : List (Factor ℚ)) (next : ℕ) :
    List.Forall₂ (StandsFor (splitFactors next fs).2.1) fs (factorSymbols next fs) := by
  induction fs generalizing next with
  | nil => exact .nil
  | cons f fs ih =>
    cases f with
    | symbol s => exact .cons rfl (ih next)
    | atom a =>
      exact .cons List.mem_cons_self
        ((ih (next + 1)).imp fun f s hf => hf.mono (List.subset_cons_self _ _))

end SplitSummand

/-! ### Split summands -/

namespace SplitSummand

/-- Symbols with numbers have their product as the value of a coefficient. -/
theorem evaluateProduct_symbols {i : Interpretation ℚ Id} {b : Binding ℚ} {symbols : List Symbol}
    {c y : ℚ} (h : Expr.evaluateProduct i b c (symbols.map Expr.symbol) = .ok y) :
    ∃ ys, List.Forall₂ (fun s y => (b.get? s).bind Constant.number? = some y) symbols ys
      ∧ y = c * ys.prod := by
  induction symbols generalizing c with
  | nil => exact ⟨[], .nil, by rw [List.prod_nil, mul_one]; exact (Except.ok.inj h).symm⟩
  | cons s symbols ih =>
    obtain ⟨x, hx, hrest⟩ := exceptT_bind_eq_ok_iff.mp h
    obtain ⟨ys, hall, hy⟩ := ih hrest
    have hs := Expr.symbolValue_eq_ok_iff.mp (liftExcept_eq_ok_iff.mp hx)
    exact ⟨x :: ys, .cons hs hall, by rw [hy, List.prod_cons, mul_assoc]⟩

/-- **A split summand**: the atoms of its value symbols and the symbols that stand for its factors. -/
structure Splits (s : Summand ℚ) (split : SplitSummand ℚ) (atoms : List (Formula ℚ))
    (symbols : List Symbol) : Prop where
  /-- The decision variable stays. -/
  decision_eq : split.decision = s.decision?
  /-- The query without value atoms is that of the summand. -/
  base_eq : split.base = s.base
  /-- The value atoms are counted. -/
  count_eq : split.valueAtoms = atoms.length
  /-- The query binds the symbols of the summand. -/
  symbols_eq : split.query.symbols = s.bound
  /-- Without value atoms nothing is added. -/
  plain : atoms = [] → split.query = s.base
  /-- Where the query is not false, neither its base nor a value atom is. -/
  ne_false : ∀ v truthOf, split.query.formula.kleene v truthOf ≠ some false →
    s.base.formula.kleene v truthOf ≠ some false ∧ ∀ g ∈ atoms, g.kleene v truthOf ≠ some false
  /-- The terms are those of the base and of the value atoms. -/
  terms : ∀ t ∈ split.query.formula.terms, t ∈ s.base.formula.terms ∨ ∃ g ∈ atoms, t ∈ g.terms
  /-- The coefficient is the number times the symbols. -/
  coefficient : ∀ (i : Interpretation ℚ Id) b y, split.coefficient.evaluate i b = .ok y →
    ∃ ys, List.Forall₂ (fun s y => (b.get? s).bind Constant.number? = some y) symbols ys
      ∧ y = s.coefficient * ys.prod
  /-- Every plain factor has a symbol that stands for it. -/
  standsFor : List.Forall₂ (StandsFor atoms) s.plainFactors symbols
  /-- Every value atom is that of a plain factor. -/
  atom_of : ∀ g ∈ atoms, ∃ a t, .atom a ∈ s.plainFactors
    ∧ g = .atom (a.withExtra a.template.valueRelation (.var t))

theorem exists_splits (next : ℕ) (s : Summand ℚ) :
    ∃ atoms symbols, Splits s (ofSummand next s).1 atoms symbols := by
  set parts := splitFactors next s.plainFactors with hparts
  have hquery : (ofSummand next s).1.query = if parts.2.1.isEmpty then s.base
      else s.base.conjoin (.ofSymbols [] (.conj parts.2.1)) := rfl
  have hcoefficient : (ofSummand next s).1.coefficient = if parts.1.isEmpty then
      .constant s.coefficient else .mul (.constant s.coefficient :: parts.1) := rfl
  refine ⟨parts.2.1, factorSymbols next s.plainFactors, rfl, rfl, rfl, ?_, ?_, ?_, ?_, ?_,
    standsFor_factorSymbols s.plainFactors next, fun g hg => exists_atom_of_mem hg⟩
  · -- the value atoms bind no symbols
    rw [hquery, Summand.bound_eq_base]
    split
    · rfl
    · rw [Query.symbols_conjoin fun x hx => absurd hx List.not_mem_nil]
      exact List.append_nil _
  · intro hnil
    rw [hquery, hnil]
    rfl
  · -- the base and the value atoms are parts of one conjunction
    intro v truthOf hv
    rw [hquery] at hv
    split at hv
    · rename_i hempty
      rw [List.isEmpty_iff.mp hempty]
      exact ⟨hv, fun g hg => absurd hg List.not_mem_nil⟩
    · obtain ⟨hbase, hconj⟩ := Query.ne_false_of_conjoin hv
      exact ⟨hbase, fun g hg => Formula.ne_false_of_conj hconj hg⟩
  · intro t ht
    rw [hquery] at ht
    split at ht
    · exact .inl ht
    · exact (Query.mem_terms_of_conjoin ht).imp_right Formula.mem_termsList.mp
  · -- the coefficient is the number alone, or a product that starts with it
    intro i b y hy
    rw [hcoefficient, hparts, splitFactors_fst] at hy
    split at hy
    · rename_i hempty
      rw [List.isEmpty_iff, List.map_eq_nil_iff] at hempty
      rw [hempty]
      exact ⟨[], .nil, by rw [List.prod_nil, mul_one]; exact (Except.ok.inj hy).symm⟩
    · rw [Expr.evaluate, Expr.evaluateProduct] at hy
      obtain ⟨c, hc, hrest⟩ := exceptT_bind_eq_ok_iff.mp hy
      obtain rfl : s.coefficient = c := Except.ok.inj hc
      rw [one_mul] at hrest
      exact evaluateProduct_symbols hrest

end SplitSummand

/-! ### Rows -/

/-- **A summand under an outer query**: both are scoped, bind different symbols, and have truth values
wherever they are reached. -/
structure Query.Encloses (w : World) (outer : Query ℚ) (s : Summand ℚ) : Prop where
  /-- The constants of the outer formula are those of the world. -/
  knows : w.constants.Knows outer.formula.terms
  /-- The variables of the outer formula are bound by the outer query. -/
  inScope : outer.Scoped []
  /-- The summand fits under the outer symbols. -/
  fits : s.Fits w.Admits outer.symbols
  /-- The summand binds other symbols. -/
  apart : ∀ x ∈ s.bound, x ∉ outer.symbols
  /-- The formulas have truth values. -/
  decided : ∀ u, w.Reaches (outer.symbols ++ s.bound) .unbound u →
    outer.formula.kleene u w.truthOf ≠ none
      ∧ (outer.formula.kleene u w.truthOf = some true → s.condition w u ≠ none)

/-- The outer symbols and those of the summand do not repeat. -/
theorem Query.Encloses.nodup {w : World} {outer : Query ℚ} {s : Summand ℚ} (he : outer.Encloses w s) :
    (outer.symbols ++ s.bound).Nodup :=
  List.nodup_append.mpr ⟨outer.nodup, s.nodup_bound, fun _ hx y hy heq => he.apart y hy (heq ▸ hx)⟩

namespace Blocks

open SplitSummand

variable {outer : Query ℚ} {s : Summand ℚ} {split : SplitSummand ℚ} {atoms : List (Formula ℚ)}
  {symbols : List Symbol}

/-- The formulas of the outer query and of a summand are both true. -/
def BothHold (w : World) (outer : Query ℚ) (s : Summand ℚ) (u : Valuation ℚ) : Prop :=
  outer.formula.kleene u w.truthOf = some true ∧ s.condition w u = some true

theorem symbols_conjoin_base (he : outer.Encloses w s) :
    (outer.conjoin s.base).symbols = outer.symbols ++ s.bound := by
  rw [Query.symbols_conjoin, Summand.bound_eq_base]
  rw [← Summand.bound_eq_base]
  exact he.apart

/-- The variables of both formulas are symbols of the queries. -/
theorem scoped_conjoin_base (he : outer.Encloses w s) :
    ∀ x ∈ (outer.conjoin s.base).formula.occurrences, x ∈ outer.symbols ++ s.bound := by
  intro x hx
  rw [List.mem_append, Summand.bound_eq_base]
  rcases Query.mem_occurrences_of_conjoin hx with hmem | hmem
  · exact .inl ((he.inScope x hmem).resolve_right List.not_mem_nil)
  · exact (he.fits.base_inScope x hmem).symm

theorem knows_conjoin_base (he : outer.Encloses w s) :
    w.constants.Knows (outer.conjoin s.base).formula.terms := fun c hc =>
  (Query.mem_terms_of_conjoin hc).elim (he.knows c) (he.fits.base_knows c)

/-- The query without value atoms has a truth value, and it is true where both formulas are. -/
theorem kleene_conjoin_base (he : outer.Encloses w s) {u : Valuation ℚ}
    (hu : w.Reaches (outer.symbols ++ s.bound) .unbound u) :
    (outer.conjoin s.base).formula.kleene u w.truthOf ≠ none
      ∧ ((outer.conjoin s.base).formula.kleene u w.truthOf = some true ↔ BothHold w outer s u) := by
  obtain ⟨houter, hs⟩ := he.decided u hu
  obtain ⟨x, hx⟩ := Option.ne_none_iff_exists'.mp houter
  rw [Summand.condition_eq_base] at hs
  rw [BothHold, Summand.condition_eq_base]
  cases x with
  | false =>
    -- a false outer formula decides the conjunction
    have hfalse : (outer.conjoin s.base).formula.kleene u w.truthOf = some false := by
      refine Query.kleene_conjoin ?_
      rw [hx]
      exact (Connective.combine_eq_decisive (o := .conj)).mpr List.mem_cons_self
    rw [hfalse, hx]
    simp
  | true =>
    -- under a true outer formula the summand is decided, and the conjunction has its value
    obtain ⟨y, hy⟩ := Option.ne_none_iff_exists'.mp (hs hx)
    have hboth : (outer.conjoin s.base).formula.kleene u w.truthOf = some y := by
      refine Query.kleene_conjoin ?_
      rw [hx, hy]
      cases y <;> rfl
    rw [hboth, hx, hy]
    simp

/-- The query without value atoms has its answers where both formulas are true. -/
theorem listing_base (hw : w.Describes fb) (he : outer.Encloses w s) {ts : Answers ℚ}
    (h : fb.answers (outer.conjoin s.base).symbols (outer.conjoin s.base).formula = .ok ts) :
    w.Listing (outer.symbols ++ s.bound) (BothHold w outer s) .unbound ts := by
  rw [symbols_conjoin_base he] at h
  have hlist := FactBase.listing_answers hw (knows_conjoin_base he) he.nodup (scoped_conjoin_base he)
    (fun t ht => (kleene_conjoin_base he (World.reaches_extend he.nodup ht .unbound)).1) h
  exact hlist.congr he.nodup fun u hu => (kleene_conjoin_base he hu).2

/-! ### Values -/

/-- The valuation that binds every further symbol, too. -/
def completed (v : Valuation ℚ) : Valuation ℚ := fun s => some ((v s).getD (.integer 0))

theorem completed_extends (v : Valuation ℚ) : (completed v).Extends v := by
  intro s c hc
  rw [completed, hc]
  rfl

/-- Under the binding of a row both formulas are true, and so is every value atom. -/
theorem holds_of_simplify (he : outer.Encloses w s) (hs : Splits s split atoms symbols)
    {b : Binding ℚ} {u : Valuation ℚ} (hu : w.Reaches (outer.symbols ++ s.bound) .unbound u)
    (hb : Valuation.Extends b.get? u)
    (htrue : (outer.conjoin split.query).formula.simplify.kleene b.get? w.truthOf = some true) :
    BothHold w outer s u ∧ ∀ g ∈ atoms, g.kleene (completed b.get?) w.truthOf = some true := by
  have hne : (outer.conjoin split.query).formula.kleene (completed b.get?) w.truthOf
      ≠ some false := by
    refine Formula.ne_false_of_simplify ?_
    rw [Formula.kleene_mono (completed_extends _) htrue]
    simp
  obtain ⟨houter, hquery⟩ := Query.ne_false_of_conjoin hne
  obtain ⟨hbase, hatoms⟩ := hs.ne_false _ _ hquery
  -- on the bound symbols the binding says what the answer says
  have hagree : ∀ x ∈ outer.symbols ++ s.bound, completed b.get? x = u x := by
    intro x hx
    obtain ⟨c, -, hc⟩ := hu.binds x hx
    rw [hc, completed_extends _ x c (hb x c hc)]
  obtain ⟨houterDecided, hsDecided⟩ := he.decided u hu
  have houterTrue : outer.formula.kleene u w.truthOf = some true := by
    refine Formula.eq_true_of_ne_false ?_ houterDecided
    rwa [← Formula.kleene_congr outer.formula fun x hx => hagree x
      (List.mem_append_left _ ((he.inScope x hx).resolve_right List.not_mem_nil))]
  have hsTrue := hsDecided houterTrue
  rw [Summand.condition_eq_base] at hsTrue
  refine ⟨⟨houterTrue, ?_⟩, fun g hg => Formula.eq_true_of_ne_false (hatoms g hg) ?_⟩
  · rw [Summand.condition_eq_base]
    refine Formula.eq_true_of_ne_false ?_ hsTrue
    rwa [← Formula.kleene_congr s.base.formula fun x hx => hagree x ?_]
    rw [List.mem_append, Summand.bound_eq_base]
    exact (he.fits.base_inScope x hx).symm
  · obtain ⟨a, t, -, rfl⟩ := hs.atom_of g hg
    rw [Formula.kleene, ← Option.isSome_iff_ne_none, Option.isSome_map, Atom.isSome_groundAt]
    exact fun x _ => rfl

/-- A number that stands for a needed factor is its value. -/
theorem eq_of_standsFor (hw : w.Describes fb) {f : Factor ℚ} (hplain : f.decision? = none)
    (hterms : ∀ t ∈ f.terms, w.Admits t) {sym : Symbol} (hsym : StandsFor atoms f sym)
    {b : Binding ℚ} {u : Valuation ℚ} (hb : Valuation.Extends b.get? u) (hin : w.constants.Inside b.get?)
    (hatoms : ∀ g ∈ atoms, g.kleene (completed b.get?) w.truthOf = some true) {y : ℚ}
    (hy : (b.get? sym).bind Constant.number? = some y) (hneeded : f.denote fb.demands u ≠ ⊤)
    (x : Atom ℚ → ℚ) : y = f.denote (fb.values x) u := by
  cases f with
  | symbol s =>
    obtain ⟨q, hq⟩ := FactBase.demands_symbol_ne_top.mp hneeded
    rw [FactBase.values_symbol hq]
    obtain ⟨c, hc, hnumber⟩ := Option.bind_eq_some_iff.mp hq
    obtain rfl : sym = s := hsym
    rw [hb sym c hc, Option.bind_some, hnumber] at hy
    exact (Option.some.inj hy).symm
  | atom a =>
    have ha : a.isDecision = false := by
      rw [Factor.decision?] at hplain
      split at hplain
      · cases hplain
      · rename_i hdecision
        exact eq_false_of_ne_true hdecision
    obtain ⟨g, q, hg, hq⟩ := (FactBase.demands_atom_ne_top ha).mp hneeded
    rw [FactBase.values_atom ha hg hq]
    obtain ⟨args, hargs, rfl⟩ := Atom.groundAt_eq_some_iff.mp hg
    obtain ⟨c, hc, hnumber⟩ := Option.bind_eq_some_iff.mp hy
    have hinArgs : ∀ d ∈ args, d ∈ w.domain := by
      refine forall_mem_of_forall₂ (List.Forall₂.imp (fun t d hd => Term.valueAt_mono hb hd) hargs)
        fun t ht d hd => hin.valueAt (World.knows_of_admits hterms) ht hd
    -- the value atom is true of the arguments and the value
    have hvalue := hatoms _ hsym
    have hground : (a.withExtra a.template.valueRelation (.var sym)).groundAt (completed b.get?)
        = some ⟨a.template.valueRelation, (args ++ [c]).map .const⟩ := by
      refine (Atom.groundAt_withExtra_iff (completed_extends _ sym c hc)).mpr ⟨args, ?_, rfl⟩
      exact hargs.imp fun t d hd => Term.valueAt_mono (completed_extends _) (Term.valueAt_mono hb hd)
    rw [Formula.kleene, hground, Option.map_some, Option.some.injEq, hw.holds_iff] at hvalue
    · have hsame := FactBase.number?_of_askFact hw.covers hinArgs hq hvalue
      rw [hnumber] at hsame
      exact Option.some.inj hsame
    · intro d hd
      rcases List.mem_append.mp hd with hd | hd
      · exact hinArgs d hd
      · rw [List.mem_singleton.mp hd]
        exact hin sym c hc

/-! ### Answers -/

/-- The cell of a coefficient holds its value. -/
theorem coefficientCell_eq_ok {K : Type} [Scalar K] {i : Interpretation K Id} {e : Expr K}
    {b : Binding K} {cs : Tuple K} (h : (KnowledgeBase.coefficientCell i e b).run.map ([·]) = .ok cs) :
    ∃ y, e.evaluate i b = .ok y ∧ cs = [.real y] := by
  obtain ⟨cell, hcell, rfl⟩ := map_eq_ok_iff.mp h
  obtain ⟨y, hy, heq⟩ := exceptT_bind_eq_ok_iff.mp hcell
  obtain rfl := Except.ok.inj heq
  exact ⟨y, withError_eq_ok_iff.mp hy, rfl⟩

theorem symbols_conjoin_split (he : outer.Encloses w s) (hs : Splits s split atoms symbols) :
    (outer.conjoin split.query).symbols = outer.symbols ++ s.bound := by
  rw [Query.symbols_conjoin, hs.symbols_eq]
  rw [hs.symbols_eq]
  exact he.apart

/-- The formula of a bulk query mentions known constants only. -/
theorem knows_conjoin_split (he : outer.Encloses w s) (hs : Splits s split atoms symbols) :
    w.constants.Knows (outer.conjoin split.query).formula.terms := by
  intro c hc
  rcases Query.mem_terms_of_conjoin hc with hmem | hmem
  · exact he.knows c hmem
  · rcases hs.terms _ hmem with hmem | ⟨g, hg, hmem⟩
    · exact he.fits.base_knows c hmem
    · obtain ⟨a, t, ha, rfl⟩ := hs.atom_of g hg
      rcases List.mem_append.mp hmem with hmem | hmem
      · exact he.fits.factors _ (List.mem_filter.mp ha).1 _ hmem c rfl
      · cases List.mem_singleton.mp hmem

/-- **What an answer of a bulk query says**: it is a tuple under which both formulas are true, and a
number that is the product of numbers for the symbols. -/
theorem exists_of_mem_ask (hw : w.Describes fb) (he : outer.Encloses w s)
    (hs : Splits s split atoms symbols) {answers : Answers ℚ}
    (h : fb.ask (outer.conjoin split.query).symbols (outer.conjoin split.query).formula
      (some split.coefficient) = .ok answers) {r : Tuple ℚ} (hr : r ∈ answers) :
    ∃ (b : Binding ℚ) (t : Tuple ℚ) (ys : List ℚ),
      r = t ++ [.real (s.coefficient * ys.prod)]
        ∧ t ∈ w.tuples (outer.symbols ++ s.bound).length
        ∧ Valuation.Extends b.get? (Valuation.unbound.extend (outer.symbols ++ s.bound) t)
        ∧ (∀ x, (b.get? x).isSome → x ∈ (outer.conjoin split.query).formula.occurrences)
        ∧ BothHold w outer s (Valuation.unbound.extend (outer.symbols ++ s.bound) t)
        ∧ List.Forall₂ (fun s y => (b.get? s).bind Constant.number? = some y) symbols ys
        ∧ (s.plainDenote fb.demands (Valuation.unbound.extend (outer.symbols ++ s.bound) t) ≠ ⊤ →
          ∀ x, s.coefficient * ys.prod = s.plainDenote (fb.values x)
            (Valuation.unbound.extend (outer.symbols ++ s.bound) t)) := by
  obtain ⟨b, hin, hvars, htrue, t, cs, ht, hcs, rfl⟩ :=
    FactBase.collect_sound hw.covers (knows_conjoin_split he hs) h hr
  rw [← hw.truthOf_eq] at htrue
  rw [symbols_conjoin_split he hs] at ht
  obtain ⟨y, hy, rfl⟩ := coefficientCell_eq_ok hcs
  obtain ⟨ys, hys, rfl⟩ := hs.coefficient _ _ _ hy
  have htuple := FactBase.mem_tuples_of_reads hin ht
  have hext : Valuation.Extends b.get?
      (Valuation.unbound.extend (outer.symbols ++ s.bound) t) := Valuation.extends_extend he.nodup ht
  obtain ⟨hboth, hatoms⟩ := holds_of_simplify he hs
    (World.reaches_extend he.nodup htuple .unbound) hext htrue
  refine ⟨b, t, ys, rfl, htuple, hext, hvars, hboth, hys, fun hneeded x => ?_⟩
  -- each number stands for a factor, and equals it where the factor is finite
  have hnumbers : List.Forall₂ (fun f y =>
      f.denote fb.demands (Valuation.unbound.extend (outer.symbols ++ s.bound) t) ≠ ⊤ →
        y = f.denote (fb.values x) (Valuation.unbound.extend (outer.symbols ++ s.bound) t))
      s.plainFactors ys := by
    refine forall₂_comp hs.standsFor hys fun f hf sym y hsym hy hfinite => ?_
    obtain ⟨hmem, hplain⟩ := List.mem_filter.mp hf
    exact eq_of_standsFor hw (Option.isNone_iff_eq_none.mp hplain) (he.fits.factors f hmem) hsym
      hext hin hatoms hy hfinite x
  exact FactBase.prod_eq_of_finite hneeded hnumbers

end Blocks

end RelationalLP
