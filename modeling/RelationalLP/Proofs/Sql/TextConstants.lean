import Mathlib
import RelationalLP.Proofs.Sql.RecordedLiterals
import RelationalLP.Proofs.Sql.RefusedCoefficients

/-! # Text constants of queries

A text constant of a query cannot end its literal early, whatever its characters. The statement of a query
shows exactly the text constants of the conjunctions of its normal form, each as one literal, and the lookup
of an atom shows those of its arguments. -/

namespace RelationalLP

variable {K : Type}

/-- The text that a term is. -/
def Term.text? (t : Term K) : Option String := t.constant?.bind Constant.text?

/-- **The text constants of a conjunction**, in the order of its selection: those of the positive atoms, of
the comparisons, and of the negated atoms. -/
def Conjunction.texts (c : Conjunction K) : List String :=
  ((c.filterMap Literal.positive?).flatMap Atom.arguments
    ++ (c.filterMap Literal.comparison?).flatMap Comparison.terms
    ++ (c.filterMap Literal.negated?).flatMap Atom.arguments).filterMap Term.text?

theorem Term.text?_eq_some_iff {t : Term K} {s : String} :
    t.text? = some s ↔ t = .const (.text s) := by
  rcases t with x | v | v | s'
  · exact iff_of_false nofun nofun
  · exact iff_of_false nofun nofun
  · exact iff_of_false nofun nofun
  · simp [Term.text?, Term.constant?, Constant.text?]

/-- Every text constant of a literal is one of the conjunction, and no other text is. -/
theorem Conjunction.mem_texts {c : Conjunction K} {s : String} :
    s ∈ c.texts ↔ ∃ l ∈ c, .const (.text s) ∈ l.terms := by
  simp only [texts, List.mem_filterMap, Term.text?_eq_some_iff, exists_eq_right, List.mem_append,
    List.mem_flatMap, Literal.positive?_eq_some_iff, Literal.comparison?_eq_some_iff,
    Literal.negated?_eq_some_iff]
  constructor
  · rintro ((⟨a, ha, hs⟩ | ⟨e, he, hs⟩) | ⟨a, ha, hs⟩)
    · exact ⟨.positive a, ha, hs⟩
    · exact ⟨.compare e, he, hs⟩
    · exact ⟨.negative a, ha, hs⟩
  · rintro ⟨l, hl, hs⟩
    cases l with
    | positive a => exact .inl (.inl ⟨a, hl, hs⟩)
    | negative a => exact .inr ⟨a, hl, hs⟩
    | compare e => exact .inl (.inr ⟨e, hl, hs⟩)

namespace Sql

namespace Draft

variable {d : Draft K} {c : Conjunction K} {N : String → Prop} {selectors : List Symbol}
  {coefficient : Option (Expr K)} {sel : Selection K}

/-! ### The text constants of a selection -/

theorem texts_of_operand {t : Term K} {o : Operand K} (h : d.operand t = .ok o) :
    o.texts = t.text?.toList := by
  cases t with
  | var s =>
    obtain ⟨column, -, rfl⟩ := map_eq_ok_iff.mp h
    rfl
  | const c =>
    obtain rfl := Except.ok.inj h
    rfl

theorem texts_of_comparison {e : Comparison K} {condition : Condition K}
    (h : d.comparison e = .ok condition) : condition.texts = e.terms.filterMap Term.text? := by
  obtain ⟨left, hleft, h⟩ := bind_eq_ok_iff.mp h
  obtain ⟨right, hright, h⟩ := bind_eq_ok_iff.mp h
  obtain rfl := Except.ok.inj h
  rw [Condition.texts, texts_of_operand hleft, texts_of_operand hright, Comparison.terms,
    List.filterMap_eq_flatMap_toList]
  simp

theorem texts_of_absence {a : Source × List (Column × Term K)} {condition : Condition K}
    (h : d.absence a = .ok condition) :
    condition.texts = (a.2.map Prod.snd).filterMap Term.text? := by
  obtain ⟨values, rfl, hvalues⟩ := absence_eq_ok h
  rw [Condition.texts, List.filterMap_eq_flatMap_toList, List.flatMap_map]
  exact flatMap_eq_flatMap_of_forall₂ hvalues fun cell _ value hvalue => texts_of_operand hvalue.2

theorem texts_joins (d : Draft K) : d.joins.flatMap Condition.texts = [] := by
  refine List.flatMap_eq_nil_iff.mpr fun condition hcondition => ?_
  obtain ⟨_, _, _, rfl, -⟩ := exists_of_mem_joins hcondition
  rfl

theorem texts_constantConditions (d : Draft K) :
    d.constantConditions.flatMap Condition.texts = (d.cells.map Prod.snd).filterMap Term.text? := by
  simp only [constantConditions, List.filterMap_eq_flatMap_toList, List.flatMap_assoc, List.flatMap_map]
  refine congrArg (d.cells.flatMap ·) (funext fun (column, t) => ?_)
  cases t with
  | var x => rfl
  | const v => exact List.append_nil _

/-- **A selection has the text constants of its conjunction**, in the order of its conditions. -/
theorem Records.texts_eq [Scalar K] (h : d.Records N c)
    (hsel : d.Composes selectors coefficient sel) :
    sel.texts = c.texts := by
  obtain ⟨comparisons, absences, hcomparisons, habsences, hconditions⟩ := hsel.conditions
  have hcompared : comparisons.flatMap Condition.texts
      = (d.comparisons.flatMap Comparison.terms).filterMap Term.text? := by
    rw [List.filterMap_flatMap]
    exact flatMap_eq_flatMap_of_forall₂ hcomparisons fun _ _ _ => texts_of_comparison
  have habsent : absences.flatMap Condition.texts
      = (d.absences.flatMap fun a => a.2.map Prod.snd).filterMap Term.text? := by
    rw [List.filterMap_flatMap]
    exact flatMap_eq_flatMap_of_forall₂ habsences fun _ _ _ => texts_of_absence
  rw [Selection.texts, hconditions, List.flatMap_append, List.flatMap_append, List.flatMap_append,
    texts_joins, texts_constantConditions, hcompared, habsent, h.terms, h.comparisons, h.absences,
    List.nil_append, Conjunction.texts, List.filterMap_append, List.filterMap_append]

/-! ### The names of a selection -/

section Names

variable {d : Draft Double} {c : Conjunction Double} {selectors : List Symbol}
  {coefficient : Option (Expr Double)} {sel : Selection Double}

/-- The columns of a draft are written without quotes when their names have none. -/
theorem Records.plain_write (h : d.Records Plain c) {column : Column} {t : Term Double}
    (hcell : (column, t) ∈ d.cells) : Plain column.write :=
  ((h.columns _ hcell).1.append (by decide)).append (h.columns _ hcell).2

theorem Records.plain_firstColumn (h : d.Records Plain c) {s : Symbol} {column : Column}
    (hcolumn : d.firstColumn s = .ok column) : Plain column.write :=
  h.plain_write (mem_cells_of_lookup (firstColumn_eq_ok_iff.mp hcolumn))

theorem Records.plain_operand (h : d.Records Plain c) {t : Term Double} {o : Operand Double}
    (ho : d.operand t = .ok o) : o.HasPlainNames := by
  cases t with
  | var s =>
    obtain ⟨column, hcolumn, rfl⟩ := map_eq_ok_iff.mp ho
    exact h.plain_firstColumn hcolumn
  | const v =>
    obtain rfl := Except.ok.inj ho
    trivial

mutual

/-- **A computed value is written without quotes**, at any depth. -/
theorem Records.plain_quantity (h : d.Records Plain c) :
    (e : Expr Double) → ∀ q, d.quantity e = .ok q → Plain q.write
  | .constant v, _, hq => by
    obtain rfl := Except.ok.inj hq
    exact plain_textIn .plain v
  | .symbol s, _, hq => by
    obtain ⟨column, hcolumn, rfl⟩ := map_eq_ok_iff.mp hq
    exact h.plain_firstColumn hcolumn
  | .add es, _, hq => by
    obtain ⟨qs, hqs, rfl⟩ := map_eq_ok_iff.mp hq
    exact (Plain.append (by decide) (.intercalate (by decide) (h.plain_quantities es qs hqs))).append
      (by decide)
  | .mul es, _, hq => by
    obtain ⟨qs, hqs, rfl⟩ := map_eq_ok_iff.mp hq
    exact .intercalate (by decide) (h.plain_quantities es qs hqs)

theorem Records.plain_quantities (h : d.Records Plain c) :
    (es : List (Expr Double)) → ∀ qs, d.quantities es = .ok qs → ∀ t ∈ Quantity.writeAll qs, Plain t
  | [], _, hqs => by
    obtain rfl := Except.ok.inj hqs
    exact nofun
  | e :: es, _, hqs => by
    obtain ⟨q, hq, hqs⟩ := bind_eq_ok_iff.mp hqs
    obtain ⟨rest, hrest, heq⟩ := bind_eq_ok_iff.mp hqs
    obtain rfl := Except.ok.inj heq
    exact List.forall_mem_cons.mpr ⟨h.plain_quantity e q hq, h.plain_quantities es rest hrest⟩

end

theorem Records.plain_comparison (h : d.Records Plain c) {e : Comparison Double}
    {condition : Condition Double} (hcondition : d.comparison e = .ok condition) :
    condition.HasPlainNames := by
  obtain ⟨left, hleft, hcondition⟩ := bind_eq_ok_iff.mp hcondition
  obtain ⟨right, hright, hcondition⟩ := bind_eq_ok_iff.mp hcondition
  obtain rfl := Except.ok.inj hcondition
  exact ⟨h.plain_operand hleft, h.plain_operand hright⟩

theorem Records.plain_absence (h : d.Records Plain c) {a : Source × List (Column × Term Double)}
    (ha : a ∈ d.absences) {condition : Condition Double} (hcondition : d.absence a = .ok condition) :
    condition.HasPlainNames := by
  obtain ⟨hsource, hcells⟩ := h.absent a ha
  obtain ⟨values, rfl, hvalues⟩ := absence_eq_ok hcondition
  refine ⟨(hsource.2.append (by decide)).append hsource.1, fun p hp => ?_⟩
  obtain ⟨cell, hcell, hcolumn, ho⟩ := exists_of_forall₂_right hvalues hp
  rw [hcolumn]
  exact ⟨((hcells cell hcell).1.append (by decide)).append (hcells cell hcell).2, h.plain_operand ho⟩

/-- **A selection has plain names** when the names of its columns, tables and selectors are plain. -/
theorem Records.hasPlainNames (h : d.Records Plain c) (hselectors : ∀ s ∈ selectors, Plain s.name)
    (hsel : d.Composes selectors coefficient sel) : sel.HasPlainNames where
  columns p hp := by
    obtain ⟨x, hx, hcolumn, rfl⟩ := exists_of_forall₂_right hsel.columns hp
    exact ⟨h.plain_firstColumn hcolumn, hselectors _ hx⟩
  quantity q hq := by
    have hquantity := hsel.quantity
    cases coefficient with
    | none =>
      rw [← Except.ok.inj hquantity] at hq
      cases hq
    | some e =>
      obtain ⟨q', hq', heq⟩ := bind_eq_ok_iff.mp hquantity
      rw [← Except.ok.inj heq] at hq
      obtain rfl := Option.some.inj hq
      exact h.plain_quantity e q' hq'
  sources t ht := by
    rw [hsel.sources] at ht
    exact ((h.sources t ht).2.append (by decide)).append (h.sources t ht).1
  conditions condition hcondition := by
    -- one case for each kind of condition
    obtain ⟨comparisons, absences, hcomparisons, habsences, hconditions⟩ := hsel.conditions
    rw [hconditions] at hcondition
    simp only [List.mem_append] at hcondition
    rcases hcondition with ((hjoin | hconstant) | hcompared) | habsent
    · obtain ⟨_, first, other, rfl, hfirst, hother⟩ := exists_of_mem_joins hjoin
      exact ⟨h.plain_write hfirst, h.plain_write hother⟩
    · obtain ⟨⟨column, t⟩, hcell, hmade⟩ := List.mem_filterMap.mp hconstant
      obtain ⟨v, -, rfl⟩ := Option.map_eq_some_iff.mp hmade
      exact ⟨h.plain_write hcell, trivial⟩
    · obtain ⟨e, -, he⟩ := exists_of_forall₂_right hcomparisons hcompared
      exact h.plain_comparison he
    · obtain ⟨a, ha, hmade⟩ := exists_of_forall₂_right habsences habsent
      exact h.plain_absence ha hmade

end Names

end Draft

/-! ### Statements and lookups -/

section Compiled

variable [Scalar K] {σ : Type} {N : String → Prop} {schema : SchemaSource (StateM σ)}

/-- A selection that is composed from a draft of a conjunction. -/
def IsDrafted (N : String → Prop) (selectors : List Symbol) (coefficient : Option (Expr K))
    (c : Conjunction K) (sel : Selection K) : Prop :=
  ∃ d : Draft K, d.Records N c ∧ d.Composes selectors coefficient sel

/-- **A statement has a selection for each conjunction of the normal form**, composed from its draft. -/
theorem ensures_statement? (hschema : schema.Only N) (selectors : List Symbol) {f : Formula K}
    (hf : ∀ a ∈ f.atoms, N a.name) (coefficient : Option (Expr K)) :
    Compile.Ensures N (statement? schema selectors f coefficient) fun statement =>
      ∀ st ∈ statement, List.Forall₂ (IsDrafted N selectors coefficient) f.toDnf st := by
  have hdnf := Formula.forall_atoms_toDnf hf
  have hselection : ∀ c ∈ f.toDnf, Compile.Ensures N
      (do let draft ← Draft.ofConjunction schema c; liftExcept (draft.selection selectors coefficient))
      (IsDrafted N selectors coefficient c) := fun c hc =>
    (ensures_ofConjunction hschema (hdnf c hc)).bind fun d hd =>
      (Compile.Ensures.lift _).mono fun sel hsel => ⟨d, hd, Draft.composes_of_selection hsel⟩
  rw [statement?]
  split
  · exact .pure fun st hst => absurd hst (Option.not_mem_none st)
  · rw [map_eq_pure_bind]
    refine (Compile.Ensures.mapM hselection).bind fun selections h => .pure ?_
    rintro st ⟨⟩
    exact h

/-- **A lookup gives the arguments of its atom** to columns of its table. -/
theorem ensures_factLookup (hschema : schema.Only N) {a : Atom K} (ha : N a.name) :
    Compile.Ensures N (factLookup schema a) fun l => l.texts = a.arguments.filterMap Term.text?
      ∧ N l.column ∧ N l.table ∧ ∀ p ∈ l.given, N p.1 := by
  rw [factLookup]
  split
  · exact .throw _
  · rename_i args hground
    have hargs : List.Forall₂ (fun t v => t.constant? = some v) a.arguments args :=
      mapM_eq_some_iff.mp hground
    -- only the constants of the atom are values, and the names come from the schema
    have hgiven : ∀ p ∈ args.zipIdx, Compile.Ensures N
        (do return ((← columnAt schema a.name p.2), p.1))
        fun entry : String × Constant K => entry.2 = p.1 ∧ N entry.1 := fun p _ =>
      (ensures_columnAt hschema a.name p.2).bind fun name hname => .pure ⟨rfl, hname⟩
    refine (ensures_columnAt hschema a.name args.length).bind fun column hcolumn =>
      (Compile.Ensures.mapM hgiven).bind fun given h => .pure ⟨?_, hcolumn, ha, fun entry hentry => ?_⟩
    · have hvalues : given.map Prod.snd = args := by
        rw [map_eq_map_of_forall₂ h (g := Prod.fst) fun p _ entry hentry => hentry.1, List.zipIdx_map_fst]
      have htexts : args.flatMap (fun v => v.text?.toList) = a.arguments.flatMap fun t => t.text?.toList := by
        refine flatMap_eq_flatMap_of_forall₂ hargs fun t _ v hv => ?_
        rw [Term.text?, hv]
        rfl
      rw [Lookup.texts, List.filterMap_eq_flatMap_toList, ← htexts, ← hvalues, List.flatMap_map]
    · obtain ⟨p, -, -, hname⟩ := exists_of_forall₂_right h hentry
      exact hname

end Compiled

/-- The positional schema names columns without quotes. -/
theorem only_plain_positionalSchema {σ : Type} :
    (positionalSchema : SchemaSource (StateM σ)).Only Plain := by
  intro table s names s' hrun name hname
  obtain ⟨hnames, -⟩ := Prod.mk.inj hrun
  obtain rfl := Except.ok.inj hnames
  obtain ⟨i, -, rfl⟩ := List.mem_map.mp hname
  exact Plain.append (by decide) (plain_toString_nat _)

/-- **Text constants cannot escape their literals.** A literal is read as its text and no further, unless a
quote follows. So in every statement of a query, and in every lookup, each text constant is read at its place
as one literal with its own value; and where tables and columns have plain names, those of the result
included, reading the whole text finds these literals, in order, and no others. -/
theorem text_constants_stay_literals {σ : Type} (schema : SchemaSource (StateM σ)) :
    (∀ (s : String) (rest : List Char), rest.head? ≠ some '\'' →
      readLiteral? ((literal (.text s : Constant Double)).toList ++ rest) = some (s, rest))
    ∧ (∀ (selectors : List Symbol) (f : Formula Double) (coefficient : Option (Expr Double))
        (cache cache' : ColumnCache) (t t' : σ) (st : Statement Double),
      ((statement? schema selectors f coefficient).run.run cache).run t = ((.ok (some st), cache'), t') →
      ∃ ps, Shows st.write (f.toDnf.flatMap Conjunction.texts) ps
        ∧ (∀ s, .literal s ∈ ps → .const (.text s) ∈ f.terms)
        ∧ (schema.Only Plain → cache.Only Plain → (∀ a ∈ f.atoms, Plain a.name) →
          (∀ s ∈ selectors, Plain s.name) → pieces? st.write.toList = some ps))
    ∧ ∀ (a : Atom Double) (cache cache' : ColumnCache) (t t' : σ) (l : Lookup Double),
      ((factLookup schema a).run.run cache).run t = ((.ok l, cache'), t') →
      ∃ ps, Shows l.write (a.arguments.filterMap Term.text?) ps
        ∧ (schema.Only Plain → cache.Only Plain → Plain a.name → pieces? l.write.toList = some ps) := by
  refine ⟨fun s rest h => readLiteral?_quote s h, ?_, ?_⟩
  · intro selectors f coefficient cache cache' t t' st hrun
    -- the text constants do not depend on the names
    have hany : List.Forall₂ (IsDrafted (fun _ => True) selectors coefficient) f.toDnf st :=
      (ensures_statement? schema.only_true selectors (fun _ _ => trivial) coefficient
        cache t _ cache' t' hrun cache.only_true).1 st rfl
    have htexts : st.texts = f.toDnf.flatMap Conjunction.texts :=
      flatMap_eq_flatMap_of_forall₂ hany fun c _ sel ⟨_, hd, hsel⟩ => hd.texts_eq hsel
    obtain ⟨ps, hshows, hread⟩ := st.exists_shows
    rw [htexts] at hshows
    refine ⟨ps, hshows, fun s hs => ?_, fun hschema hcache hatoms hselectors => hread fun sel hsel => ?_⟩
    · have hmem : s ∈ f.toDnf.flatMap Conjunction.texts :=
        hshows.texts_eq ▸ List.mem_filterMap.mpr ⟨_, hs, rfl⟩
      obtain ⟨c, hc, hs⟩ := List.mem_flatMap.mp hmem
      obtain ⟨l, hl, hs⟩ := Conjunction.mem_texts.mp hs
      exact Formula.mem_terms_of_toDnf hc hl hs
    · have hplain := (ensures_statement? hschema selectors hatoms coefficient
        cache t _ cache' t' hrun hcache).1 st rfl
      obtain ⟨c, -, d, hd, hcomposes⟩ := exists_of_forall₂_right hplain hsel
      exact hd.hasPlainNames hselectors hcomposes
  · intro a cache cache' t t' l hrun
    have hany := (ensures_factLookup schema.only_true trivial cache t l cache' t' hrun cache.only_true).1
    obtain ⟨ps, hshows, hread⟩ := l.exists_shows
    refine ⟨ps, hany.1 ▸ hshows, fun hschema hcache hname => hread ?_⟩
    obtain ⟨-, hcolumn, htable, hgiven⟩ := (ensures_factLookup hschema hname cache t l cache' t' hrun hcache).1
    exact ⟨hcolumn, htable, hgiven⟩

/-- Texts with quotes in a filter, in a comparison, and in a negated atom. -/
def quotedTexts : Formula Double :=
  .conj [.atom ⟨⟨"p", 2, .boolean, false⟩, [.const (.text "'"), .var ⟨"X"⟩]⟩,
    .compare ⟨.var ⟨"X"⟩, .ne, .const (.text "a'")⟩,
    .neg (.atom ⟨⟨"q", 2, .boolean, false⟩, [.var ⟨"X"⟩, .const (.text "''b''c")]⟩)]

/-- Each text is one literal of the statement, however many quotes it starts or ends with. -/
theorem text_constants_stay_literals_quotedTexts :
    readLiteral? ("''''".toList ++ " AND".toList) = some ("'", " AND".toList)
    ∧ (∃ ps, pieces? ("SELECT DISTINCT a1.c2 AS X FROM p AS a1 WHERE a1.c1 = '''' AND a1.c2 <> 'a'''"
          ++ " AND NOT EXISTS (SELECT 1 FROM q AS n1 WHERE n1.c1 = a1.c2 AND n1.c2 = '''''b''''c')").toList
        = some ps ∧ ps.filterMap Piece.text? = ["'", "a'", "''b''c"])
    ∧ ∃ ps, pieces? "SELECT c3 FROM p WHERE c1 = '''x''y' AND c2 = 2".toList = some ps
        ∧ ps.filterMap Piece.text? = ["'x'y"] := by
  obtain ⟨hliteral, hstatement, hlookup⟩ := text_constants_stay_literals
    (positionalSchema : SchemaSource (StateM Unit))
  have hnothing : ColumnCache.Only Plain [] := fun _ _ h => absurd h (Option.some_ne_none _).symm
  refine ⟨hliteral "'" " AND".toList (by decide), ?_, ?_⟩
  · have htext : ((((statement? (positionalSchema : SchemaSource (StateM Unit)) [⟨"X"⟩] quotedTexts
        none).run.run []).run ()).1.1.toOption.map (Option.map Statement.write)) = some (some
          ("SELECT DISTINCT a1.c2 AS X FROM p AS a1 WHERE a1.c1 = '''' AND a1.c2 <> 'a'''"
            ++ " AND NOT EXISTS (SELECT 1 FROM q AS n1 WHERE n1.c1 = a1.c2 AND n1.c2 = '''''b''''c')")) := by
      decide +kernel
    have htexts : quotedTexts.toDnf.flatMap Conjunction.texts = ["'", "a'", "''b''c"] := by decide +kernel
    obtain ⟨_, hresult, hsome⟩ := exists_eq_ok_of_map_toOption htext
    obtain ⟨st, rfl, hwrite⟩ := Option.map_eq_some_iff.mp hsome
    obtain ⟨ps, hshows, -, hread⟩ := hstatement _ _ _ _ _ _ _ st
      (Prod.ext (Prod.ext hresult rfl) rfl)
    rw [← hwrite]
    exact ⟨ps, hread only_plain_positionalSchema hnothing (by decide) (by decide),
      htexts ▸ hshows.texts_eq⟩
  · have htext : ((((factLookup (positionalSchema : SchemaSource (StateM Unit))
        (⟨⟨"p", 2, .numeric, false⟩, [.const (.text "'x'y"), .const (.integer 2)]⟩ : Atom Double)).run.run
          []).run ()).1.1.toOption.map Lookup.write)
        = some "SELECT c3 FROM p WHERE c1 = '''x''y' AND c2 = 2" := by decide +kernel
    obtain ⟨l, hresult, hwrite⟩ := exists_eq_ok_of_map_toOption htext
    obtain ⟨ps, hshows, hread⟩ := hlookup _ _ _ _ _ l (Prod.ext (Prod.ext hresult rfl) rfl)
    rw [← hwrite]
    exact ⟨ps, hread only_plain_positionalSchema hnothing (by decide), hshows.texts_eq⟩

end Sql

end RelationalLP
