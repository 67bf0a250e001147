import Mathlib
import RelationalLP.Proofs.Facts.Search
import RelationalLP.Proofs.Sql.Drafts

/-! # What the conditions of a draft say

A choice of rows and a valuation match when each argument of a positive atom has the value of its column.
The equations of a draft hold of a choice exactly when some valuation matches it; where one does, the
conditions of comparisons and negated atoms are true exactly when these literals are. -/

namespace RelationalLP

namespace Sql

variable {K : Type}

/-! ### Cells and valuations -/

/-- A term has the value of a column. -/
def Valued (scope : Scope K) (v : Valuation K) (cell : Column × Term K) : Prop :=
  ∃ c, cell.1.value? scope = some c ∧ cell.2.valueAt v = some c

/-- **A valuation matches a choice of rows**: the terms of a draft have the values of their columns. -/
def Draft.Matches (d : Draft K) (scope : Scope K) (v : Valuation K) : Prop :=
  ∀ cell ∈ d.cells, Valued scope v cell

variable {db : Database K} {scope : Scope K} {v : Valuation K} {d : Draft K}

/-- The columns of a row in sight have the cells of the row as values. -/
theorem value?_of_lookup {label table : String} {row : Tuple K} (hrow : row ∈ db.rows table)
    (h : scope.lookup label = some ((db.columns table).zip row)) :
    List.Forall₂ (fun name c => Column.value? scope ⟨label, name⟩ = some c) (db.columns table)
      row := by
  refine List.forall₂_iff_zip.mpr ⟨(db.width table row hrow).symm, fun {name c} hmem => ?_⟩
  have hkeys : (((db.columns table).zip row).map Prod.fst).Nodup := by
    rw [List.map_fst_zip (db.width table row hrow).ge]
    exact db.nodup table
  rw [Column.value?, h, Option.bind_some]
  exact lookup_eq_some_of_mem hkeys hmem

/-- The arguments of an atom have the values of the columns of a row exactly when they stand for its
cells. -/
theorem forall_valued_cells_iff {label : String} {a : Atom K} (ha : db.Fits a) {row : Tuple K}
    (hrow : row ∈ db.rows a.name) (h : scope.lookup label = some ((db.columns a.name).zip row)) :
    (∀ cell ∈ db.cells label a, Valued scope v cell)
      ↔ List.Forall₂ (fun t c => t.valueAt v = some c) a.arguments row := by
  have hlength : a.arguments.length = (db.columns a.name).length := ha
  have hvalues := value?_of_lookup hrow h
  clear hrow h
  rw [Database.cells]
  generalize db.columns a.name = names at hlength hvalues
  generalize a.arguments = terms at hlength
  induction hvalues generalizing terms with
  | nil =>
    rw [List.length_eq_zero_iff.mp hlength]
    simp
  | cons hc _ ih =>
    cases terms with
    | nil => cases hlength
    | cons t terms =>
      rw [List.zip_cons_cons, List.map_cons, List.forall_mem_cons, List.forall₂_cons]
      refine and_congr ?_ (ih terms (Nat.succ.inj hlength))
      rw [Valued, hc]
      simp

/-- The terms of the cells of an atom are its arguments. -/
theorem map_snd_cells {label : String} {a : Atom K} (ha : db.Fits a) :
    (db.cells label a).map Prod.snd = a.arguments := by
  have hlength : a.arguments.length = (db.columns a.name).length := ha
  rw [Database.cells, List.map_map]
  exact List.map_snd_zip hlength.le

/-- The columns of the cells of an atom bear its alias, and have values in any row of its table. -/
theorem value?_of_mem_cells {label : String} {a : Atom K} {row : Tuple K}
    (hrow : row ∈ db.rows a.name) (h : scope.lookup label = some ((db.columns a.name).zip row))
    {cell : Column × Term K} (hcell : cell ∈ db.cells label a) :
    ∃ c ∈ row, cell.1.value? scope = some c := by
  obtain ⟨⟨name, t⟩, hmem, rfl⟩ := List.mem_map.mp hcell
  exact exists_of_forall₂_left (value?_of_lookup hrow h) (List.of_mem_zip hmem).1

theorem label_of_mem_cells {label : String} {a : Atom K} {cell : Column × Term K}
    (hcell : cell ∈ db.cells label a) : cell.1.label = label := by
  obtain ⟨p, -, rfl⟩ := List.mem_map.mp hcell
  rfl

/-! ### Symbols and their columns -/

namespace Draft

theorem mem_symbolColumns {s : Symbol} {c : Column} :
    (s, c) ∈ d.symbolColumns ↔ (c, .var s) ∈ d.cells := by
  rw [symbolColumns, List.mem_filterMap]
  constructor
  · rintro ⟨⟨c', t⟩, hmem, heq⟩
    cases t with
    | var s' =>
      obtain ⟨rfl, rfl⟩ := Prod.mk.inj (Option.some.inj heq)
      exact hmem
    | const x => cases heq
  · intro h
    exact ⟨(c, .var s), h, rfl⟩

/-- The column that gives a symbol its value is one of its columns. -/
theorem mem_cells_of_lookup {s : Symbol} {c : Column} (h : d.symbolColumns.lookup s = some c) :
    (c, .var s) ∈ d.cells := by
  obtain ⟨before, after, heq, -⟩ := List.lookup_eq_some_iff.mp h
  exact mem_symbolColumns.mp (heq ▸ List.mem_append_right _ List.mem_cons_self)

theorem firstColumn_eq_ok_iff {s : Symbol} {c : Column} :
    d.firstColumn s = .ok c ↔ d.symbolColumns.lookup s = some c := by
  rw [firstColumn]
  cases d.symbolColumns.lookup s <;> simp

/-- The columns of a symbol, the one that gives it its value first. -/
theorem head?_columns (pairs : List (Symbol × Column)) (s : Symbol) :
    (pairs.filterMap fun (t, c) => if t = s then some c else none).head? = pairs.lookup s := by
  induction pairs with
  | nil => rfl
  | cons p pairs ih =>
    obtain ⟨t, c⟩ := p
    rw [List.lookup_cons]
    by_cases h : t = s
    · simp [h]
    · simp [h, beq_false_of_ne (Ne.symm h), ih]

theorem mem_columns {pairs : List (Symbol × Column)} {s : Symbol} {c : Column} :
    c ∈ (pairs.filterMap fun (t, c) => if t = s then some c else none) ↔ (s, c) ∈ pairs := by
  simp [List.mem_filterMap]

/-- An equation of a symbol equates two of its columns. -/
theorem exists_of_mem_joins {condition : Condition K} (h : condition ∈ d.joins) :
    ∃ s first other, condition = .compare (.column first) .eq (.column other)
      ∧ (first, .var s) ∈ d.cells ∧ (other, .var s) ∈ d.cells := by
  obtain ⟨s, -, hs⟩ := List.mem_flatMap.mp h
  rw [symbolJoins] at hs
  split at hs
  · exact absurd hs List.not_mem_nil
  · rename_i first rest heq
    obtain ⟨other, hother, rfl⟩ := List.mem_map.mp hs
    have hcolumns : ∀ c ∈ first :: rest, (c, .var s) ∈ d.cells := by
      intro c hc
      rw [← heq, mem_columns] at hc
      exact mem_symbolColumns.mp hc
    exact ⟨s, first, other, rfl, hcolumns first List.mem_cons_self,
      hcolumns other (List.mem_cons_of_mem _ hother)⟩

/-- Every column of a symbol is the one that gives it its value, or is equated to it. -/
theorem exists_first {s : Symbol} {c : Column} (h : (c, .var s) ∈ d.cells) :
    ∃ first, d.symbolColumns.lookup s = some first
      ∧ (c = first ∨ .compare (.column first) .eq (.column c) ∈ d.joins) := by
  have hpair : (s, c) ∈ d.symbolColumns := mem_symbolColumns.mpr h
  have hmem := mem_columns.mpr hpair
  cases hcolumns : d.symbolColumns.filterMap fun (t, c) => if t = s then some c else none with
  | nil =>
    rw [hcolumns] at hmem
    exact absurd hmem List.not_mem_nil
  | cons first rest =>
    refine ⟨first, by rw [← head?_columns, hcolumns, List.head?_cons], ?_⟩
    rw [hcolumns] at hmem
    refine (List.mem_cons.mp hmem).imp_right fun hrest => List.mem_flatMap.mpr ⟨s, ?_, ?_⟩
    · exact mem_distinct.mpr (List.mem_map.mpr ⟨_, hpair, rfl⟩)
    · rw [symbolJoins, hcolumns]
      exact List.mem_map_of_mem hrest

end Draft

/-! ### Values of symbols -/

variable {D : Domain K}

/-- The values of the columns of a draft are constants of a domain. -/
def Draft.Inside (d : Draft K) (D : Domain K) (scope : Scope K) : Prop :=
  ∀ cell ∈ d.cells, ∃ c ∈ D, cell.1.value? scope = some c

/-- The values that the columns of a draft give to symbols. -/
def Draft.reading (d : Draft K) (scope : Scope K) : Valuation K :=
  fun s => (d.symbolColumns.lookup s).bind (·.value? scope)

theorem Draft.inside_reading (h : d.Inside D scope) : D.Inside (d.reading scope) := by
  intro s c hc
  obtain ⟨first, hfirst, hvalue⟩ := Option.bind_eq_some_iff.mp hc
  obtain ⟨k, hk, heq⟩ := h _ (Draft.mem_cells_of_lookup hfirst)
  rwa [Option.some.inj (hvalue.symm.trans heq)]

/-- A symbol has the value of the column that is read for it. -/
theorem Draft.Matches.firstColumn (h : d.Matches scope v) {s : Symbol} {c : Column}
    (hs : d.firstColumn s = .ok c) : ∃ k, c.value? scope = some k ∧ v s = some k :=
  h _ (mem_cells_of_lookup (firstColumn_eq_ok_iff.mp hs))

/-- A term has the value of the side of a comparison that it becomes. -/
theorem Draft.Matches.operand (h : d.Matches scope v) {t : Term K} {o : Operand K}
    (ho : d.operand t = .ok o) : ∃ k, o.value? scope = some k ∧ t.valueAt v = some k := by
  cases t with
  | const x =>
    obtain rfl := Except.ok.inj ho
    exact ⟨x, rfl, rfl⟩
  | var s =>
    rw [Draft.operand] at ho
    cases hc : d.firstColumn s with
    | error e => rw [hc] at ho; cases ho
    | ok c =>
      rw [hc] at ho
      obtain rfl := Except.ok.inj ho
      exact h.firstColumn hc

/-- A row under another alias changes no side of a comparison. -/
theorem Draft.value?_operand_cons {t : Term K} {o : Operand K} (ho : d.operand t = .ok o)
    {entry : String × List (String × Constant K)} (hlabel : ∀ cell ∈ d.cells, cell.1.label ≠ entry.1) :
    o.value? (entry :: scope) = o.value? scope := by
  cases t with
  | const x =>
    obtain rfl := Except.ok.inj ho
    rfl
  | var s =>
    rw [operand] at ho
    cases hc : d.firstColumn s with
    | error e => rw [hc] at ho; cases ho
    | ok c =>
      rw [hc] at ho
      obtain rfl := Except.ok.inj ho
      have hne : c.label ≠ entry.1 :=
        hlabel _ (mem_cells_of_lookup (firstColumn_eq_ok_iff.mp hc))
      obtain ⟨label, cells⟩ := entry
      rw [Operand.value?, Operand.value?, Column.value?, Column.value?, List.lookup_cons,
        beq_false_of_ne hne]

variable [Scalar K] {fb : FactBase K}

/-! ### Equations -/

/-- Constants of a covered domain are equated when they are one constant. -/
theorem compares_eq_iff (hD : D.Covers fb) {x y : Option (Constant K)} (hx : ∀ c ∈ x, c ∈ D)
    (hy : ∀ c ∈ y, c ∈ D) : compares .eq x y = true ↔ ∃ c, x = some c ∧ y = some c := by
  cases x with
  | none => simp [compares]
  | some a =>
    cases y with
    | none => simp [compares]
    | some b =>
      have heq : Comparison.decide .eq a b = true ↔ a = b := by
        rw [Comparison.decide]
        constructor
        · intro h
          refine hD.discrete a (hx a rfl) b (hy b rfl) ?_
          cases hab : a.compareValue b with
          | none => rw [hab] at h; cases h
          | some o =>
            rw [hab] at h
            exact congrArg some (Ordering.isEq_iff_eq_eq.mp h)
        · rintro rfl
          rw [hD.reflexive a (hx a rfl)]
          rfl
      rw [compares, heq]
      simp [eq_comm]

/-- **Equations that hold make a valuation match**: the one that the first columns of symbols give. -/
theorem Draft.matches_reading (hD : D.Covers fb) (hin : d.Inside D scope)
    (hknown : D.Knows (d.cells.map Prod.snd))
    (h : ∀ condition ∈ d.joins ++ d.constantConditions, condition.holds db scope = true) :
    d.Matches scope (d.reading scope) := by
  have hvalue : ∀ c t, (c, t) ∈ d.cells → ∀ k ∈ c.value? scope, k ∈ D := by
    intro c t hmem k hk
    obtain ⟨x, hx, heq⟩ := hin _ hmem
    rwa [Option.some.inj ((Option.mem_def.mp hk).symm.trans heq)]
  rintro ⟨c, t⟩ hcell
  obtain ⟨k, hk, hc⟩ := hin _ hcell
  cases t with
  | const x =>
    have hcondition : .compare (.column c) .eq (.literal x) ∈ d.constantConditions :=
      List.mem_filterMap.mpr ⟨(c, .const x), hcell, rfl⟩
    have hxD : x ∈ D := hknown x (List.mem_map.mpr ⟨_, hcell, rfl⟩)
    have heq : compares .eq (c.value? scope) (some x) = true :=
      h _ (List.mem_append_right _ hcondition)
    rw [compares_eq_iff hD (hvalue c _ hcell) (by simpa using hxD)] at heq
    obtain ⟨y, hy, hyx⟩ := heq
    exact ⟨y, hy, hyx⟩
  | var s =>
    -- the valuation has the first column of a symbol, and a join equates any other column with it
    obtain ⟨first, hfirst, hcases⟩ := exists_first hcell
    have hreading : (Term.var s).valueAt (d.reading scope) = first.value? scope := by
      rw [Term.valueAt, reading, hfirst, Option.bind_some]
    rcases hcases with rfl | hjoin
    · exact ⟨k, hc, hreading.trans hc⟩
    · have heq : compares .eq (first.value? scope) (c.value? scope) = true :=
        h _ (List.mem_append_left _ hjoin)
      rw [compares_eq_iff hD (hvalue first _ (mem_cells_of_lookup hfirst)) (hvalue c _ hcell)] at heq
      obtain ⟨y, hy, hyc⟩ := heq
      exact ⟨y, hyc, hreading.trans hy⟩

/-- **Under a valuation that matches, the equations hold.** -/
theorem Draft.Matches.equations (hD : D.Covers fb) (hv : D.Inside v)
    (hknown : D.Knows (d.cells.map Prod.snd)) (h : d.Matches scope v) :
    ∀ condition ∈ d.joins ++ d.constantConditions, condition.holds db scope = true := by
  have hself : ∀ k ∈ D, compares .eq (some k) (some k) = true := by
    intro k hk
    exact (compares_eq_iff hD (by simpa using hk) (by simpa using hk)).mpr ⟨k, rfl, rfl⟩
  intro condition hcondition
  -- a join equates two cells of one symbol, a constant condition the cell of a constant
  rcases List.mem_append.mp hcondition with hjoin | hconst
  · obtain ⟨s, first, other, rfl, hfirst, hother⟩ := exists_of_mem_joins hjoin
    obtain ⟨k, hk, hs⟩ := h _ hfirst
    obtain ⟨k', hk', hs'⟩ := h _ hother
    obtain rfl : k = k' := Option.some.inj (hs.symm.trans hs')
    show compares .eq (first.value? scope) (other.value? scope) = true
    rw [hk, hk']
    exact hself k (hv s k hs)
  · obtain ⟨⟨c, t⟩, hcell, heq⟩ := List.mem_filterMap.mp hconst
    cases t with
    | var s => cases heq
    | const x =>
      obtain rfl := Option.some.inj heq
      obtain ⟨k, hk, hx⟩ := h _ hcell
      obtain rfl : x = k := Option.some.inj hx
      show compares .eq (c.value? scope) (some x) = true
      rw [hk]
      exact hself x (hknown x (List.mem_map.mpr ⟨_, hcell, rfl⟩))

/-! ### Comparisons and negated atoms -/

/-- **The condition of a comparison** is true when the comparison is. -/
theorem Draft.Matches.comparison_holds_iff (h : d.Matches scope v) {c : Comparison K}
    {condition : Condition K} (hc : d.comparison c = .ok condition) :
    condition.holds db scope = true ↔ c.kleene v = some true := by
  obtain ⟨left, hleft, hc⟩ := bind_eq_ok_iff.mp hc
  obtain ⟨right, hright, hc⟩ := bind_eq_ok_iff.mp hc
  obtain rfl := Except.ok.inj hc
  obtain ⟨x, hx, hvx⟩ := h.operand hleft
  obtain ⟨y, hy, hvy⟩ := h.operand hright
  show compares c.op (left.value? scope) (right.value? scope) = true ↔ _
  rw [hx, hy, compares, Comparison.kleene, hvx, hvy, Comparison.decide_eq_true_iff]

/-- An atom is true when it stands for a stored row. -/
theorem kleene_positive_iff (hD : D.Covers fb) (hv : D.Inside v) {a : Atom K}
    (ha : D.Knows a.arguments) : (Literal.positive a).kleene v fb.holds = some true
      ↔ ∃ row ∈ fb.rows a.name, List.Forall₂ (fun t c => t.valueAt v = some c) a.arguments row := by
  rw [Literal.kleene, Option.map_eq_some_iff]
  have hcells : ∀ row, List.Forall₂ (fun t c => t.valueAt v = some c) a.arguments row →
      ∀ c ∈ row, c ∈ D := fun row hrow =>
    forall_mem_of_forall₂ hrow fun t ht c hc => hv.valueAt ha ht hc
  constructor
  · rintro ⟨g, hg, hholds⟩
    obtain ⟨row, hrow, rfl⟩ := Atom.groundAt_eq_some_iff.mp hg
    exact ⟨row, (hD.holds_iff (hcells row hrow)).mp hholds, hrow⟩
  · rintro ⟨row, hstored, hrow⟩
    exact ⟨_, Atom.groundAt_eq_some_iff.mpr ⟨row, hrow, rfl⟩,
      (hD.holds_iff (hcells row hrow)).mpr hstored⟩

/-- Where an atom stands for a row, its negation is true when no stored row is that one. -/
theorem kleene_negative_iff (hD : D.Covers fb) (hv : D.Inside v) {a : Atom K}
    (ha : D.Knows a.arguments) (hground : (a.groundAt v).isSome) :
    (Literal.negative a).kleene v fb.holds = some true
      ↔ ∀ row ∈ fb.rows a.name,
        ¬ List.Forall₂ (fun t c => t.valueAt v = some c) a.arguments row := by
  have hopposite : (Literal.negative a).kleene v fb.holds = some true
      ↔ ¬ (Literal.positive a).kleene v fb.holds = some true := by
    obtain ⟨g, hg⟩ := Option.isSome_iff_exists.mp hground
    simp [Literal.kleene, hg]
  rw [hopposite, kleene_positive_iff hD hv ha]
  push Not
  rfl

/-! ### Absent rows -/

omit [Scalar K] in
/-- The columns of an absent row are compared with the operands of the arguments. -/
theorem Draft.absence_eq_ok {source : Source} {cells : List (Column × Term K)} {condition : Condition K}
    (h : d.absence (source, cells) = .ok condition) :
    ∃ values, condition = .absent source values
      ∧ List.Forall₂ (fun cell value => value.1 = cell.1 ∧ d.operand cell.2 = .ok value.2) cells
        values := by
  obtain ⟨values, hmap, h⟩ := bind_eq_ok_iff.mp h
  refine ⟨values, (Except.ok.inj h).symm, (mapM_eq_ok_iff.mp hmap).imp fun cell value hvalue => ?_⟩
  obtain ⟨o, ho, heq⟩ := bind_eq_ok_iff.mp hvalue
  obtain rfl := Except.ok.inj heq
  exact ⟨rfl, ho⟩

omit [Scalar K] in
/-- An atom whose arguments have operands stands for a row. -/
theorem Draft.Matches.isSome_groundAt (h : d.Matches scope v) {a : Atom K}
    (hoperands : ∀ t ∈ a.arguments, ∃ o, d.operand t = .ok o) : (a.groundAt v).isSome := by
  rw [Atom.isSome_groundAt]
  intro s hs
  obtain ⟨t, ht, hsym⟩ := Atom.mem_vars.mp hs
  obtain ⟨o, ho⟩ := hoperands t ht
  obtain ⟨k, -, hk⟩ := h.operand ho
  exact (Term.isSome_valueAt v t).mp (by rw [hk]; rfl) s hsym

section Absent

variable (hD : D.Covers fb) (hrows : ∀ table, db.rows table = fb.rows table) (hv : D.Inside v)
  (h : d.Matches scope v) {label : String} (hlabel : ∀ cell ∈ d.cells, cell.1.label ≠ label)
  {a : Atom K} (ha : db.Fits a) (hknown : D.Knows a.arguments)

include hD hrows hv h hlabel ha hknown

/-- In a row of the table, the equations of an absent row say that the arguments stand for the row. -/
theorem Draft.Matches.forall_compares_iff {values : List (Column × Operand K)}
    (hvalues : List.Forall₂ (fun cell value => value.1 = cell.1 ∧ d.operand cell.2 = .ok value.2)
      (db.cells label a) values) {row : Tuple K} (hrow : row ∈ db.rows a.name) :
    (∀ value ∈ values, compares .eq (value.1.value? (db.labelled ⟨a.name, label⟩ row :: scope))
        (value.2.value? (db.labelled ⟨a.name, label⟩ row :: scope)) = true)
      ↔ List.Forall₂ (fun t c => t.valueAt v = some c) a.arguments row := by
  set inner : Scope K := db.labelled ⟨a.name, label⟩ row :: scope
  have hinner : inner.lookup label = some ((db.columns a.name).zip row) := List.lookup_cons_self
  rw [← forall_valued_cells_iff ha hrow hinner]
  refine (forall_mem_iff_of_forall₂ hvalues fun cell hcell value hvalue => ?_).symm
  obtain ⟨hcolumn, ho⟩ := hvalue
  obtain ⟨k, hk, hvk⟩ := h.operand ho
  obtain ⟨c, hcrow, hcvalue⟩ := value?_of_mem_cells hrow hinner hcell
  -- equations compare by value, and constants of the domain are told apart by value
  have hcD : c ∈ D := hD.cells a.name row (hrows a.name ▸ hrow) c hcrow
  have hkD : k ∈ D := by
    refine hv.valueAt hknown ?_ hvk
    rw [← map_snd_cells ha]
    exact List.mem_map_of_mem hcell
  rw [Draft.value?_operand_cons ho hlabel, hk, hcolumn, hcvalue,
    compares_eq_iff hD (by simpa using hcD) (by simpa using hkD), Valued, hcvalue, hvk]

/-- **The condition of a negated atom** is true when its negation is. -/
theorem Draft.Matches.absence_holds_iff {condition : Condition K}
    (hc : d.absence (⟨a.name, label⟩, db.cells label a) = .ok condition) :
    condition.holds db scope = true ↔ (Literal.negative a).kleene v fb.holds = some true := by
  obtain ⟨values, rfl, hvalues⟩ := absence_eq_ok hc
  have hground : (a.groundAt v).isSome := by
    refine h.isSome_groundAt fun t ht => ?_
    rw [← map_snd_cells ha] at ht
    obtain ⟨cell, hcell, rfl⟩ := List.mem_map.mp ht
    obtain ⟨value, -, -, ho⟩ := exists_of_forall₂_left hvalues hcell
    exact ⟨value.2, ho⟩
  rw [kleene_negative_iff hD hv hknown hground, ← hrows]
  show ((db.rows a.name).all fun row => !(values.all fun value =>
    compares .eq (value.1.value? (db.labelled ⟨a.name, label⟩ row :: scope))
      (value.2.value? (db.labelled ⟨a.name, label⟩ row :: scope)))) = true ↔ _
  rw [List.all_eq_true]
  refine forall₂_congr fun row hmem => ?_
  rw [← h.forall_compares_iff hD hrows hv hlabel ha hknown hvalues hmem, Bool.not_eq_true',
    ← Bool.not_eq_true, List.all_eq_true]

end Absent

end Sql

end RelationalLP
