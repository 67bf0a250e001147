import Mathlib
import RelationalLP.Number.Double
import RelationalLP.Proofs.Grounding.BulkRows
import RelationalLP.Proofs.Grounding.Choices

/-! # Resolved facts

A bulk query with value atoms is checked by its rows: no tuple may have two of them, and there have to be
as many as answers without the value atoms. Main statement: rows that pass the check are exactly the
answers of the base; every answer has a choice of stored cells, all its choices have the product in the
row, and its facts resolve one by one exactly when different choices have different products. A factor of
zero hides a fact with two values. -/

namespace RelationalLP

variable {K : Type}

/-! ### Facts looked up one by one -/

variable [Scalar K]

/-- The value of a factor under a valuation: the number of a symbol, or the answer of a lookup. -/
def Factor.Resolves (fb : FactBase K) (v : Valuation K) : Factor K → K → Prop
  | symbol s, x => (v s).bind Constant.number? = some x
  | atom a, x => ∃ g, a.groundAt v = some g ∧ fb.askFact g = .ok (some x)

namespace Summand

/-- The plain factors of a summand all have values, and their product with the coefficient is `y`. -/
def Resolves (s : Summand K) (fb : FactBase K) (v : Valuation K) (y : K) : Prop :=
  ∃ xs, List.Forall₂ (Factor.Resolves fb v) s.plainFactors xs
    ∧ y = xs.foldl (· * ·) (1 * s.coefficient)

/-- Different choices of cells have different products. -/
def ToldApart (s : Summand K) (fb : FactBase K) (v : Valuation K) : Prop :=
  ∀ cs cs', s.Choice fb v cs → s.Choice fb v cs' →
    Tuple.product? (1 * s.coefficient) cs = Tuple.product? (1 * s.coefficient) cs' → cs = cs'

end Summand

section Lookups

variable {D : Domain K} {fb : FactBase K} {v : Valuation K} {f : Factor K} {fs : List (Factor K)}
  {cs : Tuple K}

/-- The cells of a factor are constants of the domain. -/
theorem Factor.mem_of_hasCell (hD : D.Covers fb) (hv : D.Inside v) {c : Constant K}
    (h : f.HasCell fb v c) : c ∈ D := by
  cases f with
  | symbol s => exact hv s c h
  | atom a =>
    obtain ⟨args, -, hrow⟩ := h
    exact hD.cells _ _ hrow c (List.mem_append_right _ (List.mem_singleton_self c))

/-- A factor that resolves has one cell. -/
theorem Factor.Resolves.unique (hD : D.Covers fb) (hv : D.Inside v) (hf : D.Knows f.terms) {x : K}
    (h : f.Resolves fb v x) {c d : Constant K} (hc : f.HasCell fb v c) (hd : f.HasCell fb v d) :
    c = d := by
  cases f with
  | symbol s => exact Option.some.inj (hc.symm.trans hd)
  | atom a =>
    obtain ⟨g, hg, hask⟩ := h
    obtain ⟨args, hargs, hrow⟩ := hc
    obtain ⟨args', hargs', hrow'⟩ := hd
    obtain ⟨t, ht, rfl⟩ := Atom.groundAt_eq_some_iff.mp hg
    -- both cells stand behind the arguments of the lookup
    have hsame : ∀ {us}, List.Forall₂ (fun t d => t.valueAt v = some d) a.arguments us → us = t :=
      fun hus => List.right_unique_forall₂' (fun _ _ _ hc hd => Option.some.inj (hc.symm.trans hd)) hus ht
    rw [hsame hargs] at hrow
    rw [hsame hargs'] at hrow'
    obtain ⟨e, -, hall⟩ := FactBase.exists_cell_of_askFact hD
      (forall_mem_of_forall₂ ht fun u hu d hd => hv.valueAt hf hu hd) hask
    exact ((hall c).mp hrow).trans ((hall d).mp hrow').symm

/-- A factor with one cell, a number, resolves. -/
theorem Factor.resolves_of_cell (hD : D.Covers fb) (hfb : fb.facts.Nodup) (hv : D.Inside v)
    (hf : D.Knows f.terms) {c : Constant K} {x : K} (hx : c.number? = some x)
    (h : ∀ d, f.HasCell fb v d ↔ d = c) : f.Resolves fb v x := by
  have hc := (h c).mpr rfl
  cases f with
  | symbol s => exact Option.bind_eq_some_iff.mpr ⟨c, hc, hx⟩
  | atom a =>
    obtain ⟨args, hargs, hrow⟩ := hc
    refine ⟨_, Atom.groundAt_eq_some_iff.mpr ⟨args, hargs, rfl⟩, ?_⟩
    refine FactBase.askFact_of_cell hD hfb
      (forall_mem_of_forall₂ hargs fun u hu d hd => hv.valueAt hf hu hd) hx fun d => ⟨fun hd => ?_, ?_⟩
    · exact (h d).mp ⟨args, hargs, hd⟩
    · rintro rfl
      exact hrow

omit [Scalar K] in
/-- Where there is one choice, every factor has one cell. -/
theorem Factor.hasCell_iff_of_unique (h : List.Forall₂ (Factor.HasCell fb v) fs cs)
    (hunique : ∀ cs', List.Forall₂ (Factor.HasCell fb v) fs cs' → cs' = cs) :
    List.Forall₂ (fun f c => ∀ d, f.HasCell fb v d ↔ d = c) fs cs := by
  induction h with
  | nil => exact .nil
  | @cons f c fs cs hc hcs ih =>
    refine .cons (fun d => ⟨fun hd => ?_, fun hd => hd ▸ hc⟩) (ih fun cs' hcs' => ?_)
    · exact (List.cons.inj (hunique (d :: cs) (.cons hd hcs))).1
    · exact (List.cons.inj (hunique (c :: cs') (.cons hc hcs'))).2

/-- **When the facts of a summand resolve**: all its choices have one product, so the facts resolve exactly
when different choices have different products. -/
theorem Summand.resolves_iff_toldApart (hD : D.Covers fb) (hfb : fb.facts.Nodup) (hv : D.Inside v)
    {s : Summand K} (hs : ∀ f ∈ s.plainFactors, D.Knows f.terms) {y : K}
    (hsome : ∃ cs, s.Choice fb v cs)
    (hall : ∀ cs, s.Choice fb v cs → Tuple.product? (1 * s.coefficient) cs = some y) :
    s.Resolves fb v y ↔ s.ToldApart fb v := by
  constructor
  · rintro ⟨xs, hxs, -⟩ cs cs' hcs hcs' -
    have hboth := (List.forall₂_and_left _ _).mpr ⟨fun f hf => exists_of_forall₂_left hxs hf, hcs⟩
    have hknows := (List.forall₂_and_left _ _).mpr ⟨hs, hboth⟩
    have hsame : List.Forall₂ Eq cs cs' := by
      refine forall₂_comp hknows.flip hcs' fun c _ f d hf hd => ?_
      obtain ⟨hfknows, ⟨x, -, hx⟩, hc⟩ := hf
      exact hx.unique hD hv hfknows hc hd
    rwa [List.forall₂_eq_eq_eq] at hsame
  · intro happart
    obtain ⟨cs, hcs⟩ := hsome
    obtain ⟨xs, hxs, rfl⟩ := Tuple.product?_eq_some_iff.mp (hall cs hcs)
    have hcell := Factor.hasCell_iff_of_unique hcs fun cs' hcs' =>
      happart cs' cs hcs' hcs ((hall cs' hcs').trans (hall cs hcs).symm)
    exact ⟨xs, forall₂_comp hcell hxs fun f hf c x hc hx =>
      Factor.resolves_of_cell hD hfb hv (hs f hf) hx hc, rfl⟩

end Lookups

/-! ### Rows and choices -/

namespace Blocks

open SplitSummand

/-- **A summand that can be asked for in bulk** under an outer query: no row of the facts is stored twice,
the constants are told apart by value, the variables of the plain factors are symbols of the queries, and
the value symbols from `next` on are new. -/
structure Askable (fb : FactBase K) (outer : Query K) (next : ℕ) (s : Summand K) : Prop where
  /-- No row is stored twice. -/
  nodup : fb.facts.Nodup
  /-- The constants are told apart by value. -/
  tellApart : Constant.TellApart (fb.constants ++ outer.formula.constants
    ++ (ofSummand next s).1.base.formula.constants ++ s.plainConstants)
  /-- The queries bind the variables of the plain factors. -/
  bound : ∀ f ∈ s.plainFactors, ∀ x ∈ f.vars, x ∈ (outer.conjoin (ofSummand next s).1.base).symbols
  /-- The value symbols are new. -/
  fresh : ∀ n, next ≤ n → valueSymbol n ∉ outer.symbols ++ outer.formula.vars ++ s.vars

variable {fb : FactBase K} {outer : Query K} {next : ℕ} {s : Summand K}

/-- The constants of the facts, of both formulas and of the plain factors. -/
def askedConstants (fb : FactBase K) (outer : Query K) (next : ℕ) (s : Summand K) : Domain K :=
  {c | c ∈ fb.constants ++ outer.formula.constants
    ++ (ofSummand next s).1.base.formula.constants ++ s.plainConstants}

namespace Askable

theorem covers (h : Askable fb outer next s) : (askedConstants fb outer next s).Covers fb :=
  h.tellApart.covers fun _ hc => List.mem_append_left _ (List.mem_append_left _
    (List.mem_append_left _ hc))

end Askable

theorem knows_factor {f : Factor K} (hf : f ∈ s.plainFactors) :
    (askedConstants fb outer next s).Knows f.terms := fun c hc =>
  List.mem_append_right _ (List.mem_flatMap.mpr ⟨f, hf, List.mem_filterMap.mpr ⟨.const c, hc, rfl⟩⟩)

theorem knows_base : (askedConstants fb outer next s).Knows
    (outer.conjoin (ofSummand next s).1.base).formula.terms := by
  intro c hc
  rcases Query.mem_terms_of_conjoin hc with hc | hc
  · exact List.mem_append_left _ (List.mem_append_left _
      (List.mem_append_right _ (Formula.mem_constants hc)))
  · exact List.mem_append_left _ (List.mem_append_right _ (Formula.mem_constants hc))

theorem knows_split : (askedConstants fb outer next s).Knows
    (outer.conjoin (ofSummand next s).1.query).formula.terms := by
  intro c hc
  rcases Query.mem_terms_of_conjoin hc with hc | hc
  · exact List.mem_append_left _ (List.mem_append_left _
      (List.mem_append_right _ (Formula.mem_constants hc)))
  · rcases const_mem_terms hc with hc | ⟨f, hf, hc⟩
    · exact List.mem_append_left _ (List.mem_append_right _ (Formula.mem_constants hc))
    · exact knows_factor hf c hc

/-- The symbols of the queries and the variables of their formulas are no value symbols. -/
theorem Askable.ne_valueSymbol (h : Askable fb outer next s) {x : Symbol}
    (hx : x ∈ (outer.conjoin (ofSummand next s).1.base).symbols
      ∨ x ∈ (outer.conjoin (ofSummand next s).1.base).formula.occurrences) :
    ∀ n, next ≤ n → x ≠ valueSymbol n := by
  rintro n hn rfl
  refine h.fresh n hn ?_
  rw [List.mem_append, List.mem_append, Summand.mem_vars, or_assoc]
  have hbase : valueSymbol n ∈ (ofSummand next s).1.base.symbols
      ∨ valueSymbol n ∈ (ofSummand next s).1.base.formula.occurrences →
        valueSymbol n ∈ s.bound ∨ ∃ q, s.query = some q ∧ valueSymbol n ∈ q.formula.occurrences := by
    simp only [ofSummand, Summand.bound]
    cases s.query with
    | none => exact fun h => absurd h (by rintro (h | h) <;> cases h)
    | some q => exact fun h => h.imp_right fun h => ⟨q, rfl, h⟩
  rcases hx with hx | hx
  · rcases Query.mem_symbols_conjoin.mp hx with hx | hx
    · exact .inl hx
    · exact .inr (.inr ((hbase (.inl hx)).imp_right .inl))
  · rcases Query.mem_occurrences_of_conjoin hx with hx | hx
    · exact .inr (.inl (Formula.mem_vars.mpr hx))
    · exact .inr (.inr ((hbase (.inr hx)).imp_right .inl))

/-- The valuation of a row: the symbols of the queries have its cells. -/
def rowValuation (outer : Query K) (next : ℕ) (s : Summand K) (t : Tuple K) : Valuation K :=
  Valuation.unbound.extend (outer.conjoin (ofSummand next s).1.base).symbols t

section Rows

variable (h : Askable fb outer next s) (hcount : 0 < (ofSummand next s).1.valueAtoms)
  {answers ts : Answers K}
  (hask : fb.ask (outer.conjoin (ofSummand next s).1.query).symbols
    (outer.conjoin (ofSummand next s).1.query).formula (some (ofSummand next s).1.coefficient)
      = .ok answers)
  (hbase : fb.answers (outer.conjoin (ofSummand next s).1.base).symbols
    (outer.conjoin (ofSummand next s).1.base).formula = .ok ts)

include h hcount hask hbase

/-- **A row has a choice**: its tuple is an answer of the base, and its number the product of a choice of
cells under the tuple. -/
theorem exists_choice_of_mem_ask {r : Tuple K} (hr : r ∈ answers) :
    ∃ t y, r = t ++ [.real y] ∧ t ∈ ts ∧ ∃ cs, s.Choice fb (rowValuation outer next s t) cs
      ∧ Tuple.product? (1 * s.coefficient) cs = some y := by
  obtain ⟨b, hin, -, htrue, t, cells, ht, hcells, rfl⟩ :=
    FactBase.collect_sound h.covers knows_split hask hr
  obtain ⟨y, hy, rfl⟩ := coefficientCell_eq_ok hcells
  obtain ⟨cs, hcs, hproduct⟩ := (evaluate_coefficient_iff hcount).mp hy
  obtain ⟨hbaseTrue, hatoms⟩ := kleene_conjoin_ofSummand.mp htrue
  rw [symbols_conjoin_ofSummand] at ht
  have hchoice := (forall_valueAtoms_iff h.covers hin (fun f hf => knows_factor hf) hcs).mp hatoms
  refine ⟨t, y, rfl, (FactBase.mem_answers_iff h.covers knows_base hbase).mpr
    ⟨b.get?, hin, hbaseTrue, ht⟩, cs, ?_, hproduct⟩
  -- the variables of the factors are symbols, so the cells are those under the tuple
  have hboth := (List.forall₂_and_left _ _).mpr ⟨h.bound, hchoice⟩
  exact hboth.imp fun f c hc => hc.2.congr fun x hx => Valuation.Reads.extend_eq ht .unbound x (hc.1 x hx)

/-- **Every choice has a row**: over an answer of the base, any choice of cells has a product, and the
answer followed by it is a row. -/
theorem mem_ask_of_choice {t : Tuple K} (ht : t ∈ ts) {cs : Tuple K}
    (hcs : s.Choice fb (rowValuation outer next s t) cs) :
    ∃ y, Tuple.product? (1 * s.coefficient) cs = some y ∧ t ++ [.real y] ∈ answers := by
  obtain ⟨u, hin, htrue, hread⟩ := (FactBase.mem_answers_iff h.covers knows_base hbase).mp ht
  have hboth := (List.forall₂_and_left _ _).mpr ⟨h.bound, hcs⟩
  have hchoice : List.Forall₂ (Factor.HasCell fb u) s.plainFactors cs :=
    hboth.imp fun f c hc => hc.2.congr fun x hx => (Valuation.Reads.extend_eq hread .unbound x (hc.1 x hx)).symm
  -- bind the value symbols to the choice
  obtain ⟨v, hv, hvalues, hrest⟩ := exists_reads_factorSymbols h.covers hin
    (fun n hn f hf hx => h.ne_valueSymbol (.inl (h.bound f hf _ hx)) n hn rfl) hchoice
  have hreadv : v.Reads (outer.conjoin (ofSummand next s).1.base).symbols t :=
    hread.congr fun x hx => hrest x (h.ne_valueSymbol (.inl hx))
  have hchoicev : List.Forall₂ (Factor.HasCell fb v) s.plainFactors cs := by
    refine ((List.forall₂_and_left _ _).mpr ⟨h.bound, hchoice⟩).imp fun f c hc => ?_
    exact hc.2.congr fun x hx => hrest x (h.ne_valueSymbol (.inl (hc.1 x hx)))
  have htruev : (outer.conjoin (ofSummand next s).1.base).formula.simplify.kleene v fb.holds
      = some true := by
    rw [← htrue]
    exact Formula.kleene_congr _ fun x hx => hrest x
      (h.ne_valueSymbol (.inr (Formula.mem_occurrences_of_simplify _ hx)))
  have hsplit := kleene_conjoin_ofSummand.mpr ⟨htruev,
    (forall_valueAtoms_iff h.covers hv (fun f hf => knows_factor hf) hvalues).mpr hchoicev⟩
  obtain ⟨b, hext, r, hr, t', cells, ht', hcells, rfl⟩ :=
    FactBase.collect_complete h.covers knows_split hask hv hsplit
  obtain ⟨y, hy, rfl⟩ := coefficientCell_eq_ok hcells
  obtain ⟨cs', hcs', hproduct⟩ := (evaluate_coefficient_iff hcount).mp hy
  -- the row that is found is that of the choice
  rw [symbols_conjoin_ofSummand] at ht'
  obtain rfl : t' = t := (Valuation.Reads.of_extends ht' hext).unique hreadv
  obtain rfl : cs' = cs := (Valuation.Reads.of_extends hcs' hext).unique hvalues
  exact ⟨y, hproduct, hr⟩

end Rows

/-! ### Checked rows -/

variable {ctx ctx' : GroundingContext K} {found : List Symbol × List (Tuple K × K)}

/-- **When a bulk query with value atoms succeeds**: every answer ends with a number, no tuple is repeated,
and there are as many answers as without the value atoms. -/
theorem runs_rows_iff {split : SplitSummand K} (hcount : 0 < split.valueAtoms) :
    GroundM.Runs (rows fb.knowledgeBase outer split) ctx found ctx' ↔ ctx' = ctx
      ∧ found.1 = (outer.conjoin split.query).symbols
      ∧ (∃ answers, fb.ask (outer.conjoin split.query).symbols (outer.conjoin split.query).formula
          (some split.coefficient) = .ok answers
        ∧ answers.mapM (splitAnswer split.coefficient) = .ok found.2)
      ∧ (found.2.map Prod.fst).Nodup
      ∧ ∃ ts, fb.answers (outer.conjoin split.base).symbols (outer.conjoin split.base).formula = .ok ts
        ∧ ts.length = found.2.length := by
  constructor
  · intro h
    -- the query, the splitting and the check succeed one after another
    obtain ⟨answers, ctx₁, hrequest, hrest⟩ := GroundM.runs_bind.mp h
    obtain ⟨hask, rfl⟩ := GroundM.runs_request.mp hrequest
    obtain ⟨rs, ctx₂, hsplit, hchecked⟩ := GroundM.runs_bind.mp hrest
    obtain ⟨hrs, rfl⟩ := GroundM.runs_liftExcept.mp hsplit
    rw [if_pos hcount] at hchecked
    obtain ⟨u, ctx₃, hcheck, hpure⟩ := GroundM.runs_bind.mp hchecked
    obtain ⟨rfl, hnodup, hbase⟩ := runs_checkResolved.mp hcheck
    obtain ⟨rfl, rfl⟩ := GroundM.runs_pure.mp hpure
    exact ⟨rfl, rfl, ⟨answers, hask, hrs⟩, hnodup, hbase⟩
  · rintro ⟨rfl, hsymbols, ⟨answers, hask, hrs⟩, hnodup, hbase⟩
    refine GroundM.runs_bind.mpr ⟨answers, _, GroundM.runs_request.mpr ⟨hask, rfl⟩, ?_⟩
    refine GroundM.runs_bind.mpr ⟨found.2, _, GroundM.runs_liftExcept.mpr ⟨hrs, rfl⟩, ?_⟩
    rw [if_pos hcount]
    refine GroundM.runs_bind.mpr ⟨(), _, runs_checkResolved.mpr ⟨rfl, hnodup, hbase⟩, ?_⟩
    exact GroundM.runs_pure.mpr ⟨Prod.ext hsymbols rfl, rfl⟩

/-- **Rows that pass the check**: their tuples are the answers of the base, each once, and over every
answer there are choices, all with the number of the row as their product. -/
structure Checked (fb : FactBase K) (outer : Query K) (next : ℕ) (s : Summand K) (ts : Answers K)
    (found : List (Tuple K × K)) : Prop where
  /-- No tuple has two rows. -/
  nodup : (found.map Prod.fst).Nodup
  /-- The tuples are the answers of the base. -/
  perm : (found.map Prod.fst).Perm ts
  /-- A row comes from a choice. -/
  exists_choice : ∀ r ∈ found, ∃ cs, s.Choice fb (rowValuation outer next s r.1) cs
  /-- Every choice has the product of the row. -/
  product_eq : ∀ r ∈ found, ∀ cs, s.Choice fb (rowValuation outer next s r.1) cs →
    Tuple.product? (1 * s.coefficient) cs = some r.2

theorem checked_of_runs (h : Askable fb outer next s) (hcount : 0 < (ofSummand next s).1.valueAtoms)
    (hruns : GroundM.Runs (rows fb.knowledgeBase outer (ofSummand next s).1) ctx found ctx') :
    ∃ ts, fb.answers (outer.conjoin (ofSummand next s).1.base).symbols
        (outer.conjoin (ofSummand next s).1.base).formula = .ok ts
      ∧ Checked fb outer next s ts found.2 := by
  obtain ⟨-, -, ⟨answers, hask, hrs⟩, hnodup, ts, hts, hlength⟩ := (runs_rows_iff hcount).mp hruns
  have hrows := mapM_eq_ok_iff.mp hrs
  have hmem : ∀ {t y}, t ++ [.real y] ∈ answers → (t, y) ∈ found.2 := by
    intro t y ht
    obtain ⟨r, hr, heq⟩ := exists_of_forall₂_left hrows ht
    rw [splitAnswer_concat] at heq
    exact Except.ok.inj heq ▸ hr
  have hchoice : ∀ r ∈ found.2, r.1 ∈ ts ∧ ∃ cs, s.Choice fb (rowValuation outer next s r.1) cs := by
    intro r hr
    obtain ⟨a, ha, heq⟩ := exists_of_forall₂_right hrows hr
    obtain ⟨t, y, rfl, ht, cs, hcs, -⟩ := exists_choice_of_mem_ask h hcount hask hts ha
    rw [splitAnswer_concat] at heq
    obtain rfl := Except.ok.inj heq
    exact ⟨ht, cs, hcs⟩
  refine ⟨ts, hts, hnodup, ?_, fun r hr => (hchoice r hr).2, fun r hr cs hcs => ?_⟩
  · refine (hnodup.subperm fun t ht => ?_).perm_of_length_le (by rw [List.length_map, hlength])
    obtain ⟨r, hr, rfl⟩ := List.mem_map.mp ht
    exact (hchoice r hr).1
  · obtain ⟨y, hy, hanswer⟩ := mem_ask_of_choice h hcount hask hts (hchoice r hr).1 hcs
    -- the tuple has no other row
    have hsame : (r.1, y) = r := List.inj_on_of_nodup_map hnodup (hmem hanswer) hr rfl
    rw [hy, ← congrArg Prod.snd hsame]

/-- The valuation of a row binds constants of the queries and of the facts. -/
theorem inside_rowValuation (h : Askable fb outer next s) {ts : Answers K}
    (hts : fb.answers (outer.conjoin (ofSummand next s).1.base).symbols
      (outer.conjoin (ofSummand next s).1.base).formula = .ok ts) {t : Tuple K} (ht : t ∈ ts) :
    (askedConstants fb outer next s).Inside (rowValuation outer next s t) := by
  obtain ⟨v, hin, -, hread⟩ := (FactBase.mem_answers_iff h.covers knows_base hts).mp ht
  exact Domain.Inside.extend (fun _ _ hs => by cases hs) _ (hin.mem_of_reads hread)

/-- **Checked rows resolve up to their products.** When a bulk query with value atoms succeeds, its tuples
are the answers of the base, each once. Over every tuple there is a choice of stored cells, every choice
has the number of the row as its product, and the facts resolve one by one, with this number as their
product, exactly when different choices have different products. -/
theorem rows_resolve_iff (h : Askable fb outer next s)
    (hcount : 0 < (ofSummand next s).1.valueAtoms)
    (hruns : GroundM.Runs (rows fb.knowledgeBase outer (ofSummand next s).1) ctx found ctx') :
    (found.2.map Prod.fst).Nodup
      ∧ (∃ ts, fb.ask (outer.conjoin (ofSummand next s).1.base).symbols
          (outer.conjoin (ofSummand next s).1.base).formula none = .ok ts
        ∧ (found.2.map Prod.fst).Perm ts)
      ∧ ∀ r ∈ found.2, (∃ cs, s.Choice fb (rowValuation outer next s r.1) cs)
        ∧ (∀ cs, s.Choice fb (rowValuation outer next s r.1) cs →
          Tuple.product? (1 * s.coefficient) cs = some r.2)
        ∧ (s.Resolves fb (rowValuation outer next s r.1) r.2
          ↔ s.ToldApart fb (rowValuation outer next s r.1)) := by
  obtain ⟨ts, hts, hchecked⟩ := checked_of_runs h hcount hruns
  refine ⟨hchecked.nodup, ⟨ts, hts, hchecked.perm⟩, fun r hr =>
    ⟨hchecked.exists_choice r hr, hchecked.product_eq r hr, ?_⟩⟩
  have ht : r.1 ∈ ts := hchecked.perm.mem_iff.mp (List.mem_map_of_mem hr)
  exact Summand.resolves_iff_toldApart h.covers h.nodup (inside_rowValuation h hts ht)
    (fun f hf => knows_factor hf) (hchecked.exists_choice r hr) (hchecked.product_eq r hr)

/-- Two shops, with a cost and with prices: `a` costs nothing and has two prices, `b` costs 2 and has the
price 3. -/
def market : FactBase Double where
  facts := [("shop", [.text "a"]), ("shop", [.text "b"]), ("cost", [.text "a", .integer 0]),
    ("cost", [.text "b", .integer 2]), ("price", [.text "a", .integer 1]),
    ("price", [.text "a", .integer 2]), ("price", [.text "b", .integer 3])]

/-- The cost of each shop times its price: `cost(X) * price(X)` over `X | shop(X)`. -/
def bill : Summand Double where
  query := some (.ofSymbols [⟨"X"⟩] (.atom ⟨⟨"shop", 1, .boolean, false⟩, [.var ⟨"X"⟩]⟩))
  coefficient := 1
  factors := [.atom ⟨.ofFacts "cost" 1, [.var ⟨"X"⟩]⟩, .atom ⟨.ofFacts "price" 1, [.var ⟨"X"⟩]⟩]

/-- A value symbol has a longer name than the variables of the models here. -/
theorem valueSymbol_ne (n : ℕ) {name : String} (h : name.toList.length < 3) :
    valueSymbol n ≠ ⟨name⟩ := by
  rintro heq
  rw [← Symbol.mk.inj heq, String.toList_append, List.length_append] at h
  exact absurd h (Nat.not_lt.mpr (Nat.le_add_right 3 _))

theorem askable_bill : Askable market .always 0 bill where
  nodup := by decide +kernel
  tellApart := ⟨by decide +kernel, by decide +kernel⟩
  bound := by decide +kernel
  fresh := by
    intro n _ hmem
    have hvars : (Query.always : Query Double).symbols ++ (Query.always : Query Double).formula.vars
        ++ bill.vars = [⟨"X"⟩] := by decide +kernel
    rw [hvars, List.mem_singleton] at hmem
    exact valueSymbol_ne n (by decide) hmem

/-- Each shop has one row, `a` with the number 0 and `b` with the number 6. -/
theorem runs_bill (ctx : GroundingContext Double) :
    GroundM.Runs (rows market.knowledgeBase .always (ofSummand 0 bill).1) ctx
      ([⟨"X"⟩], [([.text "a"], 0), ([.text "b"], ⟨0x4018000000000000⟩)]) ctx := by
  have hask : market.ask (Query.conjoin .always (ofSummand 0 bill).1.query).symbols
      (Query.conjoin .always (ofSummand 0 bill).1.query).formula (some (ofSummand 0 bill).1.coefficient)
        = .ok [[.text "a", .real 0], [.text "b", .real ⟨0x4018000000000000⟩]] := by decide +kernel
  have hbase : market.answers (Query.conjoin .always (ofSummand 0 bill).1.base).symbols
      (Query.conjoin .always (ofSummand 0 bill).1.base).formula
        = .ok [[.text "a"], [.text "b"]] := by decide +kernel
  exact (runs_rows_iff (by decide +kernel)).mpr ⟨rfl, by decide +kernel, ⟨_, hask, rfl⟩,
    by decide +kernel, _, hbase, rfl⟩

/-- The context before anything is grounded. -/
def startContext : GroundingContext Double := .start { sense := .minimize }

/-- The facts of `b` resolve as its choice of cells is the only one; those of `a` do not, as both of its
prices have the product 0 with its cost. -/
theorem rows_resolve_iff_bill :
    Askable market .always 0 bill ∧ 0 < (ofSummand 0 bill).1.valueAtoms
      ∧ GroundM.Runs (rows market.knowledgeBase .always (ofSummand 0 bill).1) startContext
        ([⟨"X"⟩], [([.text "a"], 0), ([.text "b"], ⟨0x4018000000000000⟩)]) startContext
      ∧ ∀ r ∈ [([.text "a"], 0), ([.text "b"], (⟨0x4018000000000000⟩ : Double))],
        (bill.Resolves market (rowValuation .always 0 bill r.1) r.2
          ↔ bill.ToldApart market (rowValuation .always 0 bill r.1)) := by
  have hcount : 0 < (ofSummand 0 bill).1.valueAtoms := by decide +kernel
  have hall := (rows_resolve_iff askable_bill hcount (runs_bill startContext)).2.2
  exact ⟨askable_bill, hcount, runs_bill startContext, fun r hr => (hall r hr).2.2⟩

/-- **A cost of zero hides a second price**: the bulk query succeeds with one row for `a`, and looking up
the price of `a` fails, as two facts match. -/
theorem rows_hide_second_price :
    GroundM.Runs (rows market.knowledgeBase .always (ofSummand 0 bill).1) startContext
        ([⟨"X"⟩], [([.text "a"], 0), ([.text "b"], ⟨0x4018000000000000⟩)]) startContext
      ∧ market.askFact ⟨.ofFacts "price" 1, [.const (.text "a")]⟩
        = .error (.inconsistent "price('a')" 2) :=
  ⟨runs_bill startContext, by decide +kernel⟩

end Blocks

/-! ### Exact products -/

section Exact

variable {D : Domain ℚ} {fb : FactBase ℚ}

/-- Constants told apart by value have different numbers. -/
theorem Domain.Covers.eq_of_number? (hD : D.Covers fb) {c d : Constant ℚ} (hc : c ∈ D) (hd : d ∈ D)
    {x : ℚ} (hcx : c.number? = some x) (hdx : d.number? = some x) : c = d := by
  refine hD.discrete c hc d hd ?_
  have hx : Scalar.compareValue x x = some .eq := by simp [Scalar.compareValue_rat]
  cases c with
  | text t => cases hcx
  | real y =>
    cases d with
    | text t => cases hdx
    | _ => cases hcx; cases hdx; exact hx
  | integer m =>
    cases d with
    | text t => cases hdx
    | real z => cases hcx; cases hdx; exact hx
    | integer n =>
      have hmn : (Scalar.ofInt m : ℚ) = Scalar.ofInt n := Option.some.inj (hcx.trans hdx.symm)
      rw [Scalar.ofInt_rat, Scalar.ofInt_rat, Int.cast_inj] at hmn
      rw [hmn]
      simp [Constant.compareValue]

/-- A product is the number in front times the product of the cells. -/
theorem Tuple.product?_eq_mul {total y : ℚ} {cs : Tuple ℚ} (h : product? total cs = some y) :
    ∃ p, ∀ t, product? t cs = some (t * p) := by
  induction cs generalizing total with
  | nil => exact ⟨1, fun t => by rw [product?, mul_one]⟩
  | cons c cs ih =>
    obtain ⟨x, hx, hrest⟩ := Option.bind_eq_some_iff.mp h
    obtain ⟨p, hp⟩ := ih hrest
    exact ⟨x * p, fun t => by rw [product?, hx, Option.bind_some, hp, mul_assoc]⟩

/-- **A product other than zero has one choice of cells**, when all choices have it. -/
theorem Factor.choice_unique_of_ne_zero (hD : D.Covers fb) {v : Valuation ℚ} (hv : D.Inside v)
    {fs : List (Factor ℚ)} {total y : ℚ} (hy : y ≠ 0)
    (hall : ∀ cs, List.Forall₂ (HasCell fb v) fs cs → Tuple.product? total cs = some y)
    {cs cs' : Tuple ℚ} (hcs : List.Forall₂ (HasCell fb v) fs cs)
    (hcs' : List.Forall₂ (HasCell fb v) fs cs') : cs = cs' := by
  induction fs generalizing total cs cs' with
  | nil => rw [List.forall₂_nil_left_iff.mp hcs, List.forall₂_nil_left_iff.mp hcs']
  | cons f fs ih =>
    obtain ⟨c, cs, hc, htail, rfl⟩ := List.forall₂_cons_left_iff.mp hcs
    obtain ⟨d, ds, hd, hds, rfl⟩ := List.forall₂_cons_left_iff.mp hcs'
    -- the first cells are in front of the same further cells
    obtain ⟨x, hx, hxy⟩ := Option.bind_eq_some_iff.mp (hall (c :: cs) (.cons hc htail))
    obtain ⟨z, hz, hzy⟩ := Option.bind_eq_some_iff.mp (hall (d :: cs) (.cons hd htail))
    obtain ⟨p, hp⟩ := Tuple.product?_eq_mul hxy
    have hxp : total * x * p = y := Option.some.inj ((hp _).symm.trans hxy)
    have hzp : total * z * p = y := Option.some.inj ((hp _).symm.trans hzy)
    have hxz : x = z := by
      have hne : total * p ≠ 0 := by
        rintro h0
        exact hy (by linear_combination x * h0 - hxp)
      exact mul_left_cancel₀ hne (by linear_combination hxp - hzp)
    have hcd : c = d :=
      hD.eq_of_number? (mem_of_hasCell hD hv hc) (mem_of_hasCell hD hv hd) hx (hxz ▸ hz)
    have hrest : ∀ es, List.Forall₂ (HasCell fb v) fs es →
        Tuple.product? (total * x) es = some y := by
      intro es hes
      have hproduct := hall (c :: es) (.cons hc hes)
      rwa [Tuple.product?, hx, Option.bind_some] at hproduct
    rw [hcd, ih hrest htail hds]

namespace Blocks

open SplitSummand

variable {outer : Query ℚ} {next : ℕ} {s : Summand ℚ} {ctx ctx' : GroundingContext ℚ}
  {found : List Symbol × List (Tuple ℚ × ℚ)}

/-- **A number other than zero has its facts**: in exact arithmetic, where the number of a checked row is
not zero, the facts resolve one by one and it is their product. -/
theorem rows_resolve_of_ne_zero (h : Askable fb outer next s)
    (hcount : 0 < (ofSummand next s).1.valueAtoms)
    (hruns : GroundM.Runs (rows fb.knowledgeBase outer (ofSummand next s).1) ctx found ctx')
    {r : Tuple ℚ × ℚ} (hr : r ∈ found.2) (hne : r.2 ≠ 0) :
    s.Resolves fb (rowValuation outer next s r.1) r.2 := by
  obtain ⟨ts, hts, hchecked⟩ := checked_of_runs h hcount hruns
  have hin := inside_rowValuation h hts (hchecked.perm.mem_iff.mp (List.mem_map_of_mem hr))
  refine (Summand.resolves_iff_toldApart h.covers h.nodup hin (fun f hf => knows_factor hf)
    (hchecked.exists_choice r hr) (hchecked.product_eq r hr)).mpr fun cs cs' hcs hcs' _ => ?_
  exact Factor.choice_unique_of_ne_zero h.covers hin hne (hchecked.product_eq r hr) hcs hcs'

end Blocks

end Exact

end RelationalLP
