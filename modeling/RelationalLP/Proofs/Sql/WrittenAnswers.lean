import Mathlib
import RelationalLP.Proofs.Sql.Answers
import RelationalLP.Proofs.Sql.ReadStatements

/-! # Texts answer like fact bases

The text that a query is compiled to is read back as its statement, when names are words, so that the text has
answers of its own: those of the statement that it is read as. Main statement: over a database of the same
rows they are the answers of the query. -/

namespace RelationalLP

namespace Sql

/-! ### Names that can be read -/

/-- A term that is a variable or a constant that can be read. -/
def LegibleTerm (t : Term Double) : Prop := ∀ c, t = .const c → (Operand.literal c).Readable

/-- **An atom whose names can be read**: the names of the table and of its columns are words. It has an
argument, as every boolean predicate does. -/
structure Database.Legible (db : Database Double) (a : Atom Double) : Prop where
  /-- The name of the table. -/
  table : IsName a.name
  /-- The names of the columns. -/
  columns : ∀ name ∈ db.columns a.name, IsName name
  /-- There is an argument. -/
  arguments : a.arguments ≠ []

/-- A draft of readable parts. -/
structure Draft.Legible (d : Draft Double) : Prop where
  /-- The columns of the positive atoms with their arguments. -/
  cells : ∀ cell ∈ d.cells, cell.1.Readable ∧ LegibleTerm cell.2
  /-- The tables of the positive atoms. -/
  sources : ∀ t ∈ d.sources, t.Readable
  /-- The comparisons. -/
  comparisons : ∀ c ∈ d.comparisons, LegibleTerm c.left ∧ LegibleTerm c.right
  /-- The negated atoms. -/
  absences : ∀ a ∈ d.absences, a.1.Readable ∧ a.2 ≠ []
    ∧ ∀ cell ∈ a.2, cell.1.Readable ∧ LegibleTerm cell.2

/-- A constant that has a value can be read. -/
theorem readable_of_valued {k : Constant Double} (h : k.compareValue k = some .eq) :
    (Operand.literal k).Readable := by
  cases k with
  | real v => exact (Double.numEq_iff.mp (Double.compareValue_eq_eq_iff.mp h)).1
  | integer n => trivial
  | text s => trivial

section Drafts

variable {d : Draft Double}

theorem Draft.Legible.firstColumn (hd : d.Legible) {s : Symbol} {column : Column}
    (h : d.firstColumn s = .ok column) : column.Readable :=
  (hd.cells _ (mem_cells_of_lookup (firstColumn_eq_ok_iff.mp h))).1

theorem Draft.Legible.operand (hd : d.Legible) {t : Term Double} (ht : LegibleTerm t)
    {o : Operand Double} (h : d.operand t = .ok o) : o.Readable := by
  cases t with
  | var s =>
    obtain ⟨column, hcolumn, rfl⟩ := map_eq_ok_iff.mp h
    exact hd.firstColumn hcolumn
  | const c =>
    obtain rfl := Except.ok.inj h
    exact ht c rfl

/-- **The selection of a legible draft can be read.** -/
theorem Draft.Legible.readable (hd : d.Legible) {selectors : List Symbol}
    (hselectors : ∀ s ∈ selectors, IsName s.name) {s : Selection Double}
    (hs : d.Composes selectors none s) : s.Readable where
  columns p hp := by
    obtain ⟨x, hx, hcolumn, rfl⟩ := exists_of_forall₂_right hs.columns hp
    exact ⟨hd.firstColumn hcolumn, hselectors _ hx⟩
  quantity := hs.quantity_eq_none
  sources := hs.sources ▸ hd.sources
  conditions condition hcondition := by
    -- one case for each kind of condition
    obtain ⟨comparisons, absences, hcomparisons, habsences, hconditions⟩ := hs.conditions
    rw [hconditions] at hcondition
    simp only [List.mem_append] at hcondition
    rcases hcondition with ((hjoin | hconstant) | hcompared) | habsent
    · obtain ⟨_, first, other, rfl, hfirst, hother⟩ := exists_of_mem_joins hjoin
      exact ⟨(hd.cells _ hfirst).1, (hd.cells _ hother).1⟩
    · obtain ⟨⟨column, t⟩, hcell, hmade⟩ := List.mem_filterMap.mp hconstant
      obtain ⟨c, hc, rfl⟩ := Option.map_eq_some_iff.mp hmade
      obtain ⟨hcolumn, ht⟩ := hd.cells _ hcell
      cases t with
      | var x => cases hc
      | const c' =>
        obtain rfl := Option.some.inj hc
        exact ⟨hcolumn, ht c' rfl⟩
    · obtain ⟨e, he, hmade⟩ := exists_of_forall₂_right hcomparisons hcompared
      obtain ⟨left, hleft, hmade⟩ := bind_eq_ok_iff.mp hmade
      obtain ⟨right, hright, hmade⟩ := bind_eq_ok_iff.mp hmade
      obtain rfl := Except.ok.inj hmade
      exact ⟨hd.operand (hd.comparisons e he).1 hleft, hd.operand (hd.comparisons e he).2 hright⟩
    · obtain ⟨a, ha, hmade⟩ := exists_of_forall₂_right habsences habsent
      obtain ⟨hsource, hne, hcells⟩ := hd.absences a ha
      obtain ⟨values, rfl, hvalues⟩ := absence_eq_ok hmade
      refine ⟨hsource, fun hnil => hne ?_, fun p hp => ?_⟩
      · rw [hnil] at hvalues
        exact List.forall₂_nil_right_iff.mp hvalues
      · obtain ⟨cell, hcell, hcolumn, ho⟩ := exists_of_forall₂_right hvalues hp
        rw [hcolumn]
        exact ⟨(hcells cell hcell).1, hd.operand (hcells cell hcell).2 ho⟩

variable {db : Database Double} {c : Conjunction Double}

/-- The cells of an atom can be read when its names and its arguments can. -/
theorem legible_cells {a : Atom Double} (ha : db.Legible a) (hterms : ∀ t ∈ a.arguments, LegibleTerm t)
    {label : String} (hlabel : IsAlias label) :
    ∀ cell ∈ db.cells label a, cell.1.Readable ∧ LegibleTerm cell.2 := by
  intro cell hcell
  obtain ⟨⟨name, t⟩, hmem, rfl⟩ := List.mem_map.mp hcell
  obtain ⟨hname, ht⟩ := List.of_mem_zip hmem
  exact ⟨⟨hlabel, ha.columns name hname⟩, hterms t ht⟩

theorem length_cells {a : Atom Double} (ha : db.Fits a) (label : String) :
    (db.cells label a).length = a.arguments.length := by
  have hlength : a.arguments.length = (db.columns a.name).length := ha
  rw [Database.cells, List.length_map, List.length_zip, ← hlength, Nat.min_self]

/-- **The draft of a conjunction is legible** when its atoms are and its constants can be read. -/
theorem legible_draft (hfits : ∀ l ∈ c, ∀ a ∈ l.atom?, db.Fits a)
    (hatoms : ∀ l ∈ c, ∀ a ∈ l.atom?, db.Legible a) (hterms : ∀ l ∈ c, ∀ t ∈ l.terms, LegibleTerm t) :
    (db.draft c).Legible := by
  obtain ⟨-, -, hfits⟩ := Conjunction.forall_iff.mp hfits
  obtain ⟨hpositive, -, hnegated⟩ := Conjunction.forall_iff.mp hatoms
  obtain ⟨hterms, hcompared, habsent⟩ := Conjunction.forall_iff.mp hterms
  rw [db.draft_eq]
  refine ⟨?_, ?_, ?_, ?_⟩
  · refine List.forall_mem_flatMap.mpr fun p hp => ?_
    have hmem := List.fst_mem_of_mem_zipIdx hp
    exact legible_cells (hpositive _ hmem _ rfl) (hterms _ hmem) ⟨p.2, .inl rfl⟩
  · refine List.forall_mem_map.mpr fun p hp => ?_
    exact ⟨(hpositive _ (List.fst_mem_of_mem_zipIdx hp) _ rfl).table, p.2, .inl rfl⟩
  · exact fun e he => ⟨hcompared e he _ (by simp [Literal.terms, Comparison.terms]),
      hcompared e he _ (by simp [Literal.terms, Comparison.terms])⟩
  · refine List.forall_mem_map.mpr fun p hp => ?_
    have hmem := List.fst_mem_of_mem_zipIdx hp
    have ha := hnegated _ hmem _ rfl
    refine ⟨⟨ha.table, p.2, .inr rfl⟩, ?_, legible_cells ha (habsent _ hmem) ⟨p.2, .inr rfl⟩⟩
    -- an absent row gives a value to each argument, and there is one
    rw [ne_eq, ← List.length_eq_zero_iff, length_cells (hfits _ hmem _ rfl), List.length_eq_zero_iff]
    exact ha.arguments

end Drafts

/-! ### The answers of a text -/

/-- **The answers of the text of a query**: those of the statement that it is read as. Without a text there
are none; a text that is no statement has no meaning. -/
def Database.answersOfText (db : Database Double) (selectors : List Symbol) (text : Option String) :
    Option (List (Tuple Double)) := (text.mapM Statement.read?).map (db.answers selectors)

/-- **Texts answer like fact bases.** Where a database has the rows of a fact base, the names that are
remembered and those of the schema are its columns, every atom has an argument for each column of its table,
and the constants are told apart by value: if a query is compiled and answered, the text is that of a
statement over the database with the answers of the query. When the names are words, the text alone says so:
it is read, and it has these answers. -/
theorem answers_perm_ask (db : Database Double) {fb : FactBase Double}
    (hrows : ∀ table, db.rows table = fb.rows table) {schema : SchemaSource Id}
    (hschema : db.DescribedBy schema) {cache cache' : ColumnCache} (hcache : db.Recalls cache)
    {selectors : List Symbol} {f : Formula Double} (hfits : ∀ a ∈ f.atoms, db.Fits a)
    (hconst : Constant.TellApart (fb.constants ++ f.constants)) {text : Option String}
    (hmade : Compile.Runs (queryText? schema selectors f none) cache text cache')
    {answers : Answers Double} (hask : fb.ask selectors f none = .ok answers) :
    (∃ statement, text = statement.map Statement.write ∧ (db.answers selectors statement).Perm answers)
      ∧ ((∀ s ∈ selectors, IsName s.name) → (∀ a ∈ f.atoms, db.Legible a) →
        ∃ rows, db.answersOfText selectors text = some rows ∧ rows.Perm answers) := by
  obtain ⟨statement, cache₁, hstatement, hpure⟩ := Compile.runs_bind.mp hmade
  obtain ⟨rfl, rfl⟩ := Compile.runs_pure.mp hpure
  have hperm := answers_perm_of_runs db hrows hschema hcache hfits hconst hstatement hask
  refine ⟨⟨statement, rfl, hperm⟩, fun hselectors hatoms => ⟨db.answers selectors statement, ?_, hperm⟩⟩
  obtain ⟨hselects, -⟩ := gives_statement hschema selectors hfits cache hcache statement cache' hstatement
  -- constants with a value are literals that can be read
  have hterms : ∀ c ∈ f.toDnf, ∀ l ∈ c, ∀ t ∈ l.terms, LegibleTerm t := by
    rintro c hc l hl t ht k rfl
    have hknown : Domain.Knows {k | .const k ∈ f.terms} f.terms := fun _ h => h
    have hmem : .const k ∈ f.terms := FactBase.knows_of_mem_toDnf hknown hc l hl k ht
    exact readable_of_valued (hconst.valued k (List.mem_append_right _ (Formula.mem_constants hmem)))
  have hreadable : ∀ s ∈ statement.getD [], s.Readable := by
    intro s hs
    obtain ⟨c, hc, hcomposes⟩ := exists_of_forall₂_right hselects hs
    exact (legible_draft (Formula.forall_atoms_toDnf hfits c hc) (Formula.forall_atoms_toDnf hatoms c hc)
      (hterms c hc)).readable hselectors hcomposes
  cases statement with
  | none => rfl
  | some s =>
    have hne : s ≠ [] := by
      rintro rfl
      rw [statement?, List.forall₂_nil_right_iff.mp hselects] at hstatement
      cases (Compile.runs_pure.mp hstatement).1
    have hread := Statement.read?_write hne hreadable
    simp [Database.answersOfText, hread]

/-- The columns of tables that are listed by name. -/
def columnsOf (tables : List (String × List String)) (table : String) : List String :=
  (tables.lookup table).getD []

/-- The database of the facts of listed tables. -/
def Database.ofFacts {K : Type} (fb : FactBase K) (tables : List (String × List String))
    (hnodup : ∀ p ∈ tables, p.2.Nodup)
    (hwidth : ∀ fact ∈ fb.facts, fact.2.length = (columnsOf tables fact.1).length) : Database K where
  columns := columnsOf tables
  rows := fb.rows
  nodup := by
    intro table
    rw [columnsOf]
    cases h : tables.lookup table with
    | none => exact List.nodup_nil
    | some names =>
      obtain ⟨before, after, heq, -⟩ := List.lookup_eq_some_iff.mp h
      exact hnodup (table, names) (heq ▸ List.mem_append_right _ List.mem_cons_self)
  width := by
    intro table row hrow
    obtain ⟨fact, hfact, hsome⟩ := List.mem_filterMap.mp hrow
    obtain ⟨hname, heq⟩ := Option.ite_none_right_eq_some.mp hsome
    rw [← hname, ← Option.some.inj heq]
    exact hwidth fact hfact

/-- The roads with their lengths and the closed towns as tables. -/
def roadTables : List (String × List String) :=
  [("road", ["start", "stop", "length"]), ("closed", ["town"])]

/-- The database of roads and closed towns. -/
def roadDatabase : Database Double :=
  .ofFacts FactBase.roads roadTables (by decide +kernel) (by decide +kernel)

/-- `road(X, Y, L) & ~closed(X) & L < 3.0 | closed(Y) & road(Y, X, L)`. -/
def detours : Formula Double :=
  .disj [
    .conj [.atom ⟨⟨"road", 3, .boolean, false⟩, [.var ⟨"X"⟩, .var ⟨"Y"⟩, .var ⟨"L"⟩]⟩,
      .neg (.atom ⟨⟨"closed", 1, .boolean, false⟩, [.var ⟨"X"⟩]⟩),
      .compare ⟨.var ⟨"L"⟩, .lt, .const (.real ⟨0x4008000000000000⟩)⟩],
    .conj [.atom ⟨⟨"closed", 1, .boolean, false⟩, [.var ⟨"Y"⟩]⟩,
      .atom ⟨⟨"road", 3, .boolean, false⟩, [.var ⟨"Y"⟩, .var ⟨"X"⟩, .var ⟨"L"⟩]⟩]]

/-- The text of `detours`: the second selection joins the closed town with the start of the road. -/
def detourText : String :=
  "SELECT DISTINCT a1.start AS X, a1.stop AS Y FROM road AS a1 WHERE a1.length < 3.0 AND "
    ++ "NOT EXISTS (SELECT 1 FROM closed AS n1 WHERE n1.town = a1.start) UNION "
    ++ "SELECT DISTINCT a2.stop AS X, a1.town AS Y FROM closed AS a1, road AS a2 "
    ++ "WHERE a1.town = a2.start"

/-- The names of the columns of the listed tables. -/
def roadSchema : SchemaSource Id := fun table => .ok (columnsOf roadTables table)

/-- The road from `a` is short and leaves an open town, and the road to `c` leaves a closed one: both the
fact base and the text over its tables answer `(a, b)` and `(c, b)`. -/
theorem answers_perm_ask_roads :
    (∀ table, roadDatabase.rows table = FactBase.roads.rows table)
      ∧ roadDatabase.DescribedBy roadSchema
      ∧ roadDatabase.Recalls []
      ∧ (∀ a ∈ detours.atoms, roadDatabase.Fits a)
      ∧ Constant.TellApart (FactBase.roads.constants ++ detours.constants)
      ∧ Compile.Runs (queryText? roadSchema [⟨"X"⟩, ⟨"Y"⟩] detours none) [] (some detourText)
          [("closed", ["town"]), ("road", ["start", "stop", "length"])]
      ∧ FactBase.roads.ask [⟨"X"⟩, ⟨"Y"⟩] detours none
          = .ok [[.text "a", .text "b"], [.text "c", .text "b"]]
      ∧ ∃ rows, roadDatabase.answersOfText [⟨"X"⟩, ⟨"Y"⟩] (some detourText) = some rows
        ∧ rows.Perm [[.text "a", .text "b"], [.text "c", .text "b"]] := by
  have hrows : ∀ table, roadDatabase.rows table = FactBase.roads.rows table := fun _ => rfl
  have hschema : roadDatabase.DescribedBy roadSchema := by
    intro table names h
    obtain rfl : columnsOf roadTables table = names := Except.ok.inj h
    exact List.prefix_refl _
  have hcache : roadDatabase.Recalls [] := fun _ _ h => nomatch h
  have hfits : ∀ a ∈ detours.atoms, roadDatabase.Fits a := by
    show ∀ a ∈ detours.atoms, a.arity = (columnsOf roadTables a.name).length
    decide +kernel
  have hconst : Constant.TellApart (FactBase.roads.constants ++ detours.constants) :=
    ⟨by decide +kernel, by decide +kernel⟩
  have hmade : Compile.Runs (queryText? roadSchema [⟨"X"⟩, ⟨"Y"⟩] detours none) [] (some detourText)
      [("closed", ["town"]), ("road", ["start", "stop", "length"])] := by
    have hresult : Id.run ((queryText? roadSchema [⟨"X"⟩, ⟨"Y"⟩] detours none).run.run [])
        = (.ok (some detourText), [("closed", ["town"]), ("road", ["start", "stop", "length"])]) := by
      decide +kernel
    exact hresult
  have hask : FactBase.roads.ask [⟨"X"⟩, ⟨"Y"⟩] detours none
      = .ok [[.text "a", .text "b"], [.text "c", .text "b"]] := by decide +kernel
  have hselectors : ∀ s ∈ [(⟨"X"⟩ : Symbol), ⟨"Y"⟩], IsName s.name := by decide
  have hatoms : ∀ a ∈ detours.atoms, roadDatabase.Legible a := by
    have hnames : ∀ a ∈ detours.atoms, IsName a.name
        ∧ (∀ name ∈ columnsOf roadTables a.name, IsName name) ∧ a.arguments ≠ [] := by decide +kernel
    exact fun a ha => ⟨(hnames a ha).1, (hnames a ha).2.1, (hnames a ha).2.2⟩
  exact ⟨hrows, hschema, hcache, hfits, hconst, hmade, hask,
    (answers_perm_ask roadDatabase hrows hschema hcache hfits hconst hmade hask).2 hselectors hatoms⟩

end Sql

end RelationalLP
