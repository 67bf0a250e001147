import Mathlib
import RelationalLP.Proofs.Facts.ConjoinedQueries
import RelationalLP.Proofs.Sql.Conditions

/-! # Statements answer like fact bases

A choice of rows under which all conditions of a selection are true is a valuation under which the
conjunction is true, and the other way round. Main statement `answers_perm_of_runs`: over a
database of the same rows, the statement of a query selects the answers of the query. -/

namespace RelationalLP

variable {K : Type}

/-! ### Conjunctions part by part -/

/-- The literals of a conjunction are its positive atoms, its comparisons and its negated atoms. -/
theorem Conjunction.forall_iff {c : Conjunction K} {P : Literal K → Prop} :
    (∀ l ∈ c, P l) ↔ (∀ a ∈ c.filterMap Literal.positive?, P (.positive a))
      ∧ (∀ d ∈ c.filterMap Literal.comparison?, P (.compare d))
      ∧ ∀ a ∈ c.filterMap Literal.negated?, P (.negative a) := by
  induction c with
  | nil => simp
  | cons l c ih =>
    rw [List.forall_mem_cons, ih]
    cases l with
    | positive a => simp [List.filterMap_cons, and_assoc]
    | negative a => simp [List.filterMap_cons]; tauto
    | compare d => simp [List.filterMap_cons]; tauto

namespace Sql

variable {db : Database K} {scope : Scope K} {v : Valuation K} {c : Conjunction K}

/-! ### Aliases -/

theorem sourceLabel_injective : Function.Injective sourceLabel := by
  intro i j h
  have hrepr : (i + 1).repr = (j + 1).repr := (String.append_right_inj _).mp h
  exact Nat.succ.inj (Nat.repr_inj.mp hrepr)

theorem sourceLabel_ne_absenceLabel (i j : ℕ) : sourceLabel i ≠ absenceLabel j := by
  rw [sourceLabel, absenceLabel]
  simp [← String.toList_inj]

/-- The cells of a draft bear aliases of the cross product. -/
theorem label_of_mem_draft {cell : Column × Term K} (h : cell ∈ (db.draft c).cells) :
    ∃ i, cell.1.label = sourceLabel i := by
  rw [Database.draft_eq] at h
  obtain ⟨⟨a, i⟩, -, hcell⟩ := List.mem_flatMap.mp h
  exact ⟨i, label_of_mem_cells hcell⟩

/-! ### Rows for the positive atoms -/

/-- What is in sight for numbered atoms: a row for each of them, under its alias. -/
def Chosen (db : Database K) (P : Atom K → Tuple K → Prop) (p : Atom K × ℕ)
    (entry : String × List (String × Constant K)) : Prop :=
  ∃ row ∈ db.rows p.1.name, entry = db.labelled ⟨p.1.name, sourceLabel p.2⟩ row ∧ P p.1 row

/-- The row of each atom is found under its alias. -/
theorem exists_row_of_chosen {P : Atom K → Tuple K → Prop} {atoms : List (Atom K)}
    (h : List.Forall₂ (Chosen db P) atoms.zipIdx scope) {p : Atom K × ℕ} (hp : p ∈ atoms.zipIdx) :
    ∃ row ∈ db.rows p.1.name,
      scope.lookup (sourceLabel p.2) = some ((db.columns p.1.name).zip row) ∧ P p.1 row := by
  have hlabels : scope.map Prod.fst = (atoms.zipIdx.map Prod.snd).map sourceLabel := by
    rw [List.map_map]
    refine map_eq_map_of_forall₂ h fun p _ entry hentry => ?_
    obtain ⟨row, -, rfl, -⟩ := hentry
    rfl
  have hnodup : (scope.map Prod.fst).Nodup := by
    rw [hlabels, List.zipIdx_map_snd]
    exact List.Nodup.map sourceLabel_injective List.nodup_range'
  obtain ⟨entry, hentry, row, hrow, rfl, hP⟩ := exists_of_forall₂_left h hp
  exact ⟨row, hrow, lookup_eq_some_of_mem hnodup hentry, hP⟩

/-- A choice of the cross product of a draft has a row for each positive atom. -/
theorem mem_scopes_draft : scope ∈ db.scopes (db.draft c).sources
    ↔ List.Forall₂ (Chosen db fun _ _ => True) (c.filterMap Literal.positive?).zipIdx scope := by
  rw [Database.mem_scopes, Database.draft_eq, List.forall₂_map_left_iff]
  have hsame : ∀ (p : Atom K × ℕ) entry, (∃ row ∈ db.rows p.1.name,
      entry = db.labelled ⟨p.1.name, sourceLabel p.2⟩ row) ↔ Chosen db (fun _ _ => True) p entry := by
    intro p entry
    simp only [Chosen, and_true]
  exact ⟨fun h => h.imp fun p entry => (hsame p entry).mp,
    fun h => h.imp fun p entry => (hsame p entry).mpr⟩

/-- The cells of a draft are those of its numbered positive atoms. -/
theorem forall_mem_cells_draft {P : Column × Term K → Prop} :
    (∀ cell ∈ (db.draft c).cells, P cell) ↔ ∀ p ∈ (c.filterMap Literal.positive?).zipIdx,
      ∀ cell ∈ db.cells (sourceLabel p.2) p.1, P cell := by
  rw [Database.draft_eq]
  exact List.forall_mem_flatMap

/-- The terms of the cells of a draft are arguments of positive atoms. -/
theorem knows_draft {D : Domain K}
    (h : ∀ a ∈ c.filterMap Literal.positive?, D.Knows a.arguments) :
    D.Knows ((db.draft c).cells.map Prod.snd) := by
  have hcells : ∀ cell ∈ (db.draft c).cells, ∀ k, cell.2 = .const k → k ∈ D := by
    refine forall_mem_cells_draft.mpr fun p hp cell hcell k hk => ?_
    obtain ⟨⟨name, t⟩, hmem, rfl⟩ := List.mem_map.mp hcell
    exact h p.1 (List.fst_mem_of_mem_zipIdx hp) k (hk ▸ (List.of_mem_zip hmem).2)
  intro k hk
  obtain ⟨cell, hcell, heq⟩ := List.mem_map.mp hk
  exact hcells cell hcell k heq

/-- **The cross product finds all positive atoms**: some choice of rows matches a valuation exactly when
each positive atom stands for a row of its table. -/
theorem exists_matches_iff (hfits : ∀ a ∈ c.filterMap Literal.positive?, db.Fits a) :
    (∃ scope ∈ db.scopes (db.draft c).sources, (db.draft c).Matches scope v)
      ↔ ∀ a ∈ c.filterMap Literal.positive?, ∃ row ∈ db.rows a.name,
        List.Forall₂ (fun t k => t.valueAt v = some k) a.arguments row := by
  have hfits : ∀ p ∈ (c.filterMap Literal.positive?).zipIdx, db.Fits p.1 := fun p hp =>
    hfits p.1 (List.fst_mem_of_mem_zipIdx hp)
  constructor
  · rintro ⟨scope, hscope, hmatches⟩ a ha
    obtain ⟨i, hi, rfl⟩ := List.mem_iff_getElem.mp ha
    have hp : ((c.filterMap Literal.positive?)[i], i) ∈ (c.filterMap Literal.positive?).zipIdx :=
      List.mk_mem_zipIdx_iff_getElem?.mpr (List.getElem?_eq_getElem hi)
    obtain ⟨row, hrow, hlookup, -⟩ := exists_row_of_chosen (mem_scopes_draft.mp hscope) hp
    refine ⟨row, hrow, (forall_valued_cells_iff (hfits _ hp) hrow hlookup).mp ?_⟩
    exact forall_mem_cells_draft.mp hmatches _ hp
  · intro h
    have hchoice : ∀ p ∈ (c.filterMap Literal.positive?).zipIdx, ∃ entry, Chosen db
        (fun a row => List.Forall₂ (fun t k => t.valueAt v = some k) a.arguments row) p entry := by
      intro p hp
      obtain ⟨row, hrow, hread⟩ := h p.1 (List.fst_mem_of_mem_zipIdx hp)
      exact ⟨_, row, hrow, rfl, hread⟩
    -- a row for each atom makes one choice of the cross product
    obtain ⟨scope, hscope⟩ := exists_forall₂_of_forall_mem hchoice
    refine ⟨scope, mem_scopes_draft.mpr (hscope.imp fun p entry hentry => ?_), ?_⟩
    · obtain ⟨row, hrow, heq, -⟩ := hentry
      exact ⟨row, hrow, heq, trivial⟩
    · refine forall_mem_cells_draft.mpr fun p hp => ?_
      obtain ⟨row, hrow, hlookup, hread⟩ := exists_row_of_chosen hscope hp
      exact (forall_valued_cells_iff (hfits p hp) hrow hlookup).mpr hread

/-! ### Selections -/

/-- **What a selection is composed of**, when it can be made. -/
structure Draft.Composes [Scalar K] (d : Draft K) (selectors : List Symbol)
    (coefficient : Option (Expr K)) (s : Selection K) : Prop where
  /-- The tables are those of the draft. -/
  sources : s.sources = d.sources
  /-- Each selector names the column that gives it its value. -/
  columns : List.Forall₂ (fun x p => d.firstColumn x = .ok p.1 ∧ p.2 = x) selectors s.columns
  /-- The computed value is that of the coefficient. -/
  quantity : coefficient.mapM d.quantity = .ok s.quantity
  /-- The conditions are the equations, the comparisons and the absences of the draft. -/
  conditions : ∃ comparisons absences,
    List.Forall₂ (fun c condition => d.comparison c = .ok condition) d.comparisons comparisons
      ∧ List.Forall₂ (fun a condition => d.absence a = .ok condition) d.absences absences
      ∧ s.conditions = d.joins ++ d.constantConditions ++ comparisons ++ absences

theorem Draft.composes_of_selection [Scalar K] {d : Draft K} {selectors : List Symbol}
    {coefficient : Option (Expr K)} {s : Selection K}
    (h : d.selection selectors coefficient = .ok s) : d.Composes selectors coefficient s := by
  obtain ⟨columns, hcolumns, h⟩ := bind_eq_ok_iff.mp h
  obtain ⟨quantity, hquantity, h⟩ := bind_eq_ok_iff.mp h
  obtain ⟨comparisons, hcomparisons, h⟩ := bind_eq_ok_iff.mp h
  obtain ⟨absences, habsences, h⟩ := bind_eq_ok_iff.mp h
  obtain rfl := Except.ok.inj h
  refine ⟨rfl, ?_, hquantity, comparisons, absences, mapM_eq_ok_iff.mp hcomparisons,
    mapM_eq_ok_iff.mp habsences, rfl⟩
  refine (mapM_eq_ok_iff.mp hcolumns).imp fun x p hp => ?_
  obtain ⟨column, hcolumn, heq⟩ := bind_eq_ok_iff.mp hp
  obtain rfl := Except.ok.inj heq
  exact ⟨hcolumn, rfl⟩

variable [Scalar K]

/-- Nothing is computed without a coefficient. -/
theorem Draft.Composes.quantity_eq_none {d : Draft K} {selectors : List Symbol} {s : Selection K}
    (hs : d.Composes selectors none s) : s.quantity = none := (Except.ok.inj hs.quantity).symm

/-- Under a valuation that matches, the selected columns have the values of the selectors. -/
theorem Draft.Composes.reads_iff {d : Draft K} {selectors : List Symbol} {coefficient : Option (Expr K)}
    {s : Selection K} (hs : d.Composes selectors coefficient s) (h : d.Matches scope v)
    {t : Tuple K} : List.Forall₂ (fun p k => p.1.value? scope = some k) s.columns t
      ↔ v.Reads selectors t := by
  have hvalues : List.Forall₂ (fun x p => p.1.value? scope = v x) selectors s.columns := by
    refine hs.columns.imp fun x p hp => ?_
    obtain ⟨k, hk, hx⟩ := h.firstColumn hp.1
    rw [hk, hx]
  constructor
  · intro hread
    refine forall₂_comp hvalues hread fun x _ p k hx hk => ?_
    rw [← hx, hk]
  · intro hread
    refine forall₂_comp hvalues.flip hread fun p _ x k hx hk => ?_
    have hx : p.1.value? scope = v x := hx
    rw [hx, hk]

variable {D : Domain K} {fb : FactBase K} {selectors : List Symbol} {s : Selection K}

/-- The conditions of comparisons are true when the comparisons are. -/
theorem forall_comparisons_iff (fb : FactBase K) {d : Draft K} (h : d.Matches scope v) {cs : List (Comparison K)}
    {conditions : List (Condition K)}
    (hc : List.Forall₂ (fun c condition => d.comparison c = .ok condition) cs conditions) :
    (∀ condition ∈ conditions, condition.holds db scope = true)
      ↔ ∀ c ∈ cs, (Literal.compare c).kleene v fb.holds = some true :=
  (forall_mem_iff_of_forall₂ hc fun _ _ _ hcondition =>
    (h.comparison_holds_iff hcondition).symm).symm

/-- The conditions of numbered negated atoms are true when their negations are. -/
theorem forall_absences_iff (hD : D.Covers fb) (hrows : ∀ table, db.rows table = fb.rows table)
    (hv : D.Inside v) (h : (db.draft c).Matches scope v) {atoms : List (Atom K)}
    (hfits : ∀ a ∈ atoms, db.Fits a) (hknown : ∀ a ∈ atoms, D.Knows a.arguments)
    {conditions : List (Condition K)}
    (hc : List.Forall₂ (fun a condition => (db.draft c).absence a = .ok condition)
      (atoms.zipIdx.map fun (a, i) => (⟨a.name, absenceLabel i⟩, db.cells (absenceLabel i) a))
      conditions) :
    (∀ condition ∈ conditions, condition.holds db scope = true)
      ↔ ∀ a ∈ atoms, (Literal.negative a).kleene v fb.holds = some true := by
  rw [List.forall₂_map_left_iff] at hc
  have hnumbered : (∀ a ∈ atoms, (Literal.negative a).kleene v fb.holds = some true)
      ↔ ∀ p ∈ atoms.zipIdx, (Literal.negative p.1).kleene v fb.holds = some true := by
    conv_lhs => rw [← List.zipIdx_map_fst 0 atoms]
    exact List.forall_mem_map
  rw [hnumbered]
  refine (forall_mem_iff_of_forall₂ hc fun p hp condition hcondition => ?_).symm
  have hmem : p.1 ∈ atoms := List.fst_mem_of_mem_zipIdx hp
  refine (h.absence_holds_iff hD hrows hv (fun cell hcell => ?_) (hfits _ hmem) (hknown _ hmem)
    hcondition).symm
  obtain ⟨i, hi⟩ := label_of_mem_draft hcell
  rw [hi]
  exact sourceLabel_ne_absenceLabel i p.2

/-- **The conditions of a selection say that the conjunction is true**, under a valuation that matches
the choice of rows. -/
theorem Draft.Composes.conditions_iff (hs : (db.draft c).Composes selectors none s) (hD : D.Covers fb)
    (hrows : ∀ table, db.rows table = fb.rows table) (hfits : ∀ l ∈ c, ∀ a ∈ l.atom?, db.Fits a)
    (hknown : ∀ l ∈ c, D.Knows l.terms) (hv : D.Inside v)
    (hscope : scope ∈ db.scopes (db.draft c).sources) (h : (db.draft c).Matches scope v) :
    (∀ condition ∈ s.conditions, condition.holds db scope = true)
      ↔ Conjunction.Holds v fb.holds c := by
  obtain ⟨comparisons, absences, hcomparisons, habsences, hconditions⟩ := hs.conditions
  obtain ⟨hfits, -, hfitsNegated⟩ := Conjunction.forall_iff.mp hfits
  obtain ⟨hknown, -, hknownNegated⟩ := Conjunction.forall_iff.mp hknown
  have hfits : ∀ a ∈ c.filterMap Literal.positive?, db.Fits a := fun a ha => hfits a ha a rfl
  have hequations : ∀ condition ∈ (db.draft c).joins ++ (db.draft c).constantConditions,
      condition.holds db scope = true :=
    h.equations hD hv (knows_draft hknown)
  -- the positive atoms are what the choice of rows is for
  have hpositive : ∀ a ∈ c.filterMap Literal.positive?,
      (Literal.positive a).kleene v fb.holds = some true := by
    intro a ha
    rw [kleene_positive_iff hD hv (hknown a ha), ← hrows]
    exact (exists_matches_iff hfits).mp ⟨scope, hscope, h⟩ a ha
  rw [db.comparisons_draft] at hcomparisons
  rw [db.absences_draft] at habsences
  rw [hconditions, List.forall_mem_append, List.forall_mem_append, Conjunction.Holds,
    Conjunction.forall_iff, forall_comparisons_iff fb h hcomparisons,
    forall_absences_iff hD hrows hv h (fun a ha => hfitsNegated a ha a rfl) hknownNegated habsences]
  tauto

/-- The columns of a draft have constants of the domain as values. -/
theorem inside_draft (hD : D.Covers fb) (hrows : ∀ table, db.rows table = fb.rows table)
    (hscope : scope ∈ db.scopes (db.draft c).sources) : (db.draft c).Inside D scope := by
  refine forall_mem_cells_draft.mpr fun p hp cell hcell => ?_
  obtain ⟨row, hrow, hlookup, -⟩ := exists_row_of_chosen (mem_scopes_draft.mp hscope) hp
  obtain ⟨k, hk, hvalue⟩ := value?_of_mem_cells hrow hlookup hcell
  exact ⟨k, hD.cells p.1.name row (hrows p.1.name ▸ hrow) k hk, hvalue⟩

/-- **A selection finds what makes the conjunction true**: a choice of rows under which the conditions are
true gives a tuple exactly when some valuation that makes the conjunction true reads it. -/
theorem Draft.Composes.exists_scope_iff (hs : (db.draft c).Composes selectors none s) (hD : D.Covers fb)
    (hrows : ∀ table, db.rows table = fb.rows table) (hfits : ∀ l ∈ c, ∀ a ∈ l.atom?, db.Fits a)
    (hknown : ∀ l ∈ c, D.Knows l.terms) {t : Tuple K} :
    (∃ scope ∈ db.scopes s.sources, (∀ condition ∈ s.conditions, condition.holds db scope = true)
        ∧ List.Forall₂ (fun p k => p.1.value? scope = some k) s.columns t)
      ↔ ∃ v : Valuation K, D.Inside v ∧ Conjunction.Holds v fb.holds c ∧ v.Reads selectors t := by
  rw [hs.sources]
  have hpositive : ∀ a ∈ c.filterMap Literal.positive?, db.Fits a := fun a ha =>
    (Conjunction.forall_iff.mp hfits).1 a ha a rfl
  have harguments : ∀ a ∈ c.filterMap Literal.positive?, D.Knows a.arguments :=
    (Conjunction.forall_iff.mp hknown).1
  constructor
  · rintro ⟨scope, hscope, hconditions, hread⟩
    have hin := inside_draft hD hrows hscope
    have hequations : ∀ condition ∈ (db.draft c).joins ++ (db.draft c).constantConditions,
        condition.holds db scope = true := by
      intro condition h
      obtain ⟨comparisons, absences, -, -, heq⟩ := hs.conditions
      refine hconditions condition ?_
      rw [heq, List.append_assoc]
      exact List.mem_append_left _ h
    -- the equations make the values of the first columns a valuation that matches
    have hmatches : (db.draft c).Matches scope ((db.draft c).reading scope) :=
      Draft.matches_reading hD hin (knows_draft harguments) hequations
    have hreading := Draft.inside_reading hin
    exact ⟨_, hreading, (hs.conditions_iff hD hrows hfits hknown hreading hscope hmatches).mp
      hconditions, (hs.reads_iff hmatches).mp hread⟩
  · rintro ⟨v, hv, hholds, hread⟩
    have hrowsFound : ∀ a ∈ c.filterMap Literal.positive?, ∃ row ∈ db.rows a.name,
        List.Forall₂ (fun t k => t.valueAt v = some k) a.arguments row := by
      intro a ha
      rw [hrows, ← kleene_positive_iff hD hv (harguments a ha)]
      exact (Conjunction.forall_iff.mp hholds).1 a ha
    obtain ⟨scope, hscope, hmatches⟩ := (exists_matches_iff hpositive).mpr hrowsFound
    exact ⟨scope, hscope,
      (hs.conditions_iff hD hrows hfits hknown hv hscope hmatches).mpr hholds,
      (hs.reads_iff hmatches).mpr hread⟩

/-! ### Statements -/

/-- Making the statement of a query makes a selection for each conjunction of its normal form, and no
statement when there is none. -/
theorem gives_statement {schema : SchemaSource Id} (hschema : db.DescribedBy schema)
    (selectors : List Symbol) {f : Formula K} (hfits : ∀ a ∈ f.atoms, db.Fits a) :
    Compile.Gives db (statement? schema selectors f none) fun statement =>
      List.Forall₂ (fun c s => (db.draft c).Composes selectors none s) f.toDnf (statement.getD []) := by
  have hdnf := Formula.forall_atoms_toDnf hfits
  rw [statement?]
  split
  · rename_i hnil
    rw [hnil]
    exact .pure .nil
  · rw [map_eq_pure_bind]
    refine (Compile.Gives.mapM fun c hc => ?_).bind fun selections h => .pure h
    refine (gives_ofConjunction hschema (hdnf c hc)).bind fun draft hdraft => ?_
    rw [hdraft]
    exact (Compile.Gives.lift _).mono fun s hs => Draft.composes_of_selection hs

/-- Answers do not repeat. -/
theorem nodup_answers (db : Database K) (selectors : List Symbol) (statement : Option (Statement K)) :
    (db.answers selectors statement).Nodup := by
  cases statement with
  | none => exact List.nodup_nil
  | some s =>
    rw [Database.answers]
    split
    · split
      · exact List.nodup_nil
      · exact List.nodup_singleton _
    · exact nodup_distinct _

/-- Selections without columns read every choice as the number one, so there are rows when there is a
choice. -/
theorem isEmpty_rows_eq_false_iff {selections : Statement K}
    (hs : ∀ s ∈ selections, s.quantity = none ∧ s.columns = []) :
    (Statement.rows db selections).isEmpty = false ↔ ∃ s ∈ selections,
      ∃ scope ∈ db.scopes s.sources,
        ∀ condition ∈ s.conditions, condition.holds db scope = true := by
  rw [List.isEmpty_eq_false_iff_exists_mem]
  simp only [Statement.mem_rows, Selection.mem_rows]
  constructor
  · rintro ⟨t, s, hmem, scope, hscope, hall, -⟩
    exact ⟨s, hmem, scope, hscope, hall⟩
  · rintro ⟨s, hmem, scope, hscope, hall⟩
    exact ⟨_, s, hmem, scope, hscope, hall, Selection.row?_of_nil (hs s hmem).1 (hs s hmem).2 scope⟩

/-- **The answers of a statement** are what its selections read off choices of rows. -/
theorem mem_answers_iff {statement : Option (Statement K)}
    (hs : ∀ s ∈ statement.getD [], s.quantity = none ∧ s.columns.length = selectors.length)
    {t : Tuple K} : t ∈ db.answers selectors statement ↔ ∃ s ∈ statement.getD [],
      ∃ scope ∈ db.scopes s.sources, (∀ condition ∈ s.conditions, condition.holds db scope = true)
        ∧ List.Forall₂ (fun p k => p.1.value? scope = some k) s.columns t := by
  cases statement with
  | none => simp [Database.answers]
  | some selections =>
    rw [Option.getD_some] at hs ⊢
    rw [Database.answers]
    -- without selectors the statement asks only whether there is a row
    cases selectors with
    | nil =>
      have hnil : ∀ s ∈ selections, s.quantity = none ∧ s.columns = [] := fun s hmem =>
        (hs s hmem).imp_right List.length_eq_zero_iff.mp
      have hread : (∃ s ∈ selections, ∃ scope ∈ db.scopes s.sources,
          (∀ condition ∈ s.conditions, condition.holds db scope = true)
            ∧ List.Forall₂ (fun p k => p.1.value? scope = some k) s.columns t)
          ↔ (Statement.rows db selections).isEmpty = false ∧ t = [] := by
        rw [isEmpty_rows_eq_false_iff hnil]
        constructor
        · rintro ⟨s, hmem, scope, hscope, hall, hcells⟩
          rw [(hnil s hmem).2, List.forall₂_nil_left_iff] at hcells
          exact ⟨⟨s, hmem, scope, hscope, hall⟩, hcells⟩
        · rintro ⟨⟨s, hmem, scope, hscope, hall⟩, rfl⟩
          exact ⟨s, hmem, scope, hscope, hall, by rw [(hnil s hmem).2]; exact .nil⟩
      rw [hread, List.isEmpty_nil, if_pos rfl]
      cases (Statement.rows db selections).isEmpty <;> simp
    | cons x selectors =>
      have hcolumns : ∀ s ∈ selections, s.columns ≠ [] := by
        intro s hmem hnil
        have hlength := (hs s hmem).2
        rw [hnil] at hlength
        cases hlength
      rw [List.isEmpty_cons, if_neg (by simp), Statement.mem_rows]
      refine exists_congr fun s => and_congr_right fun hmem => ?_
      rw [Selection.mem_rows]
      refine exists_congr fun scope => and_congr_right fun _ => and_congr_right fun _ => ?_
      exact Selection.row?_eq_some_iff (hs s hmem).1 (hcolumns s hmem)

/-- **Statements answer like fact bases.** Where a database has the rows of a fact base, the names that
are remembered and those of the schema are its columns, every atom has an argument for each column of its
table, and the constants are told apart by value: if a query has a statement and is answered, its answers
are those of the statement over the database. -/
theorem answers_perm_of_runs (db : Database K) (hrows : ∀ table, db.rows table = fb.rows table)
    {schema : SchemaSource Id} (hschema : db.DescribedBy schema) {cache cache' : ColumnCache}
    (hcache : db.Recalls cache) {selectors : List Symbol} {f : Formula K}
    (hfits : ∀ a ∈ f.atoms, db.Fits a)
    (hconst : Constant.TellApart (fb.constants ++ f.constants)) {statement : Option (Statement K)}
    (hmade : Compile.Runs (statement? schema selectors f none) cache statement cache')
    {answers : Answers K} (hask : fb.ask selectors f none = .ok answers) :
    (db.answers selectors statement).Perm answers := by
  obtain ⟨hselects, -⟩ := gives_statement hschema selectors hfits cache hcache statement cache' hmade
  set D : Domain K := {x | x ∈ fb.constants ++ f.constants}
  have hD : D.Covers fb := hconst.covers fun c hc => List.mem_append_left _ hc
  have hknown : D.Knows f.terms := fun c hc => List.mem_append_right _ (Formula.mem_constants hc)
  have hparts : ∀ s ∈ statement.getD [], s.quantity = none ∧ s.columns.length = selectors.length := by
    intro s hs
    obtain ⟨c, -, hselect⟩ := exists_of_forall₂_right hselects hs
    exact ⟨hselect.quantity_eq_none, hselect.columns.length_eq.symm⟩
  refine (List.perm_ext_iff_of_nodup (nodup_answers db selectors statement)
    (FactBase.collect_eq_ok hask).1).mpr fun t => ?_
  rw [mem_answers_iff hparts, FactBase.mem_answers_iff hD hknown hask]
  -- a selection reads what makes its conjunction true, and the conjunctions are the formula
  have hconjunction : ∀ c ∈ f.toDnf, ∀ s, (db.draft c).Composes selectors none s →
      ((∃ scope ∈ db.scopes s.sources,
          (∀ condition ∈ s.conditions, condition.holds db scope = true)
            ∧ List.Forall₂ (fun p k => p.1.value? scope = some k) s.columns t)
        ↔ ∃ v : Valuation K, D.Inside v ∧ Conjunction.Holds v fb.holds c ∧ v.Reads selectors t) :=
    fun c hc s hs => hs.exists_scope_iff hD hrows (Formula.forall_atoms_toDnf hfits c hc)
      (FactBase.knows_of_mem_toDnf hknown hc)
  constructor
  · rintro ⟨s, hs, hscope⟩
    obtain ⟨c, hc, hselect⟩ := exists_of_forall₂_right hselects hs
    obtain ⟨v, hv, hholds, hread⟩ := (hconjunction c hc s hselect).mp hscope
    exact ⟨v, hv, (Formula.holds_dnf f.simplify false).mp ⟨c, hc, hholds⟩, hread⟩
  · rintro ⟨v, hv, htrue, hread⟩
    obtain ⟨c, hc, hholds⟩ := (Formula.holds_dnf f.simplify false).mpr htrue
    obtain ⟨s, hs, hselect⟩ := exists_of_forall₂_left hselects hc
    exact ⟨s, hs, (hconjunction c hc s hselect).mpr ⟨v, hv, hholds, hread⟩⟩

end Sql

end RelationalLP
