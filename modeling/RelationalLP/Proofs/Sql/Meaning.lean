import Mathlib
import RelationalLP.Collections.Distinct
import RelationalLP.Proofs.Collections.Traversal
import RelationalLP.Sql.Statement

/-! # The meaning of statements

What a statement selects from a database. A selection takes one row of each of its tables, keeps the
choices under which all conditions are true, and reads its columns off them; a column is looked up by the
alias of its table and by its name, in the inner table of a condition first. Constants compare as in
formulas. -/

namespace RelationalLP

namespace Sql

variable {K : Type}

/-! ### Databases -/

/-- **A database**: tables by name, with the names of their columns and their rows. -/
structure Database (K : Type) where
  /-- The names of the columns of a table in order. -/
  columns : String → List String
  /-- The rows of a table. -/
  rows : String → List (Tuple K)
  /-- A table has no two columns of one name. -/
  nodup : ∀ table, (columns table).Nodup
  /-- A row has a cell for each column. -/
  width : ∀ table, ∀ row ∈ rows table, row.length = (columns table).length

/-- The cells in sight: by the alias of a table, the cells of one row by the names of their columns. -/
abbrev Scope (K : Type) := List (String × List (String × Constant K))

/-- The row of a table under an alias. -/
def Database.labelled (db : Database K) (source : Source) (row : Tuple K) :
    String × List (String × Constant K) := (source.label, (db.columns source.table).zip row)

/-- The cross product: all choices of a row for each of some tables. -/
def Database.scopes (db : Database K) : List Source → List (Scope K)
  | [] => [[]]
  | s :: rest => (db.rows s.table).flatMap fun row => (db.scopes rest).map (db.labelled s row :: ·)

/-! ### Values -/

/-- The value of a column. -/
def Column.value? (scope : Scope K) (c : Column) : Option (Constant K) :=
  (scope.lookup c.label).bind (·.lookup c.name)

/-- The value of a side of a comparison. -/
def Operand.value? (scope : Scope K) : Operand K → Option (Constant K)
  | column c => c.value? scope
  | literal v => some v

namespace Quantity

variable [Scalar K]

mutual

/-- The number that a computed value is; a sum and a product have at least one part. -/
def value? (scope : Scope K) : Quantity K → Option K
  | number v => some v
  | column c => (c.value? scope).bind Constant.number?
  | add terms => (values? scope terms).bind fun
    | [] => none
    | v :: vs => some (vs.foldl (· + ·) v)
  | mul factors => (values? scope factors).bind fun
    | [] => none
    | v :: vs => some (vs.foldl (· * ·) v)

/-- The numbers that some computed values are. -/
def values? (scope : Scope K) : List (Quantity K) → Option (List K)
  | [] => some []
  | q :: qs =>
    match q.value? scope, values? scope qs with
    | some v, some vs => some (v :: vs)
    | _, _ => none

end

end Quantity

variable [Scalar K]

/-! ### Conditions -/

/-- Whether two values satisfy an operator; a value that is missing satisfies none. -/
def compares (op : CompareOp) : Option (Constant K) → Option (Constant K) → Bool
  | some x, some y => Comparison.decide op x y
  | _, _ => false

/-- Whether a condition is true of the cells in sight. -/
def Condition.holds (db : Database K) (scope : Scope K) : Condition K → Bool
  | compare left op right => compares op (left.value? scope) (right.value? scope)
  | absent source values => (db.rows source.table).all fun row =>
      let inner := db.labelled source row :: scope
      !(values.all fun (c, v) => compares .eq (c.value? inner) (v.value? inner))

/-! ### Rows -/

/-- The cells that a selection reads, the number one when it selects nothing. -/
def Selection.row? (s : Selection K) (scope : Scope K) : Option (Tuple K) := do
  let cells ← s.columns.mapM fun (c, _) => c.value? scope
  let computed ← s.quantity.mapM (·.value? scope)
  let items := cells ++ (computed.map Constant.real).toList
  return if items.isEmpty then [.integer 1] else items

/-- The distinct rows of a selection. -/
def Selection.rows (db : Database K) (s : Selection K) : List (Tuple K) :=
  distinct (((db.scopes s.sources).filter fun scope => s.conditions.all (·.holds db scope)).filterMap
    s.row?)

/-- The distinct rows of all selections of a statement. -/
def Statement.rows (db : Database K) (s : Statement K) : List (Tuple K) :=
  distinct (s.flatMap (Selection.rows db))

/-- What a query with these selectors has as answers: none without a statement, and without selectors the
empty answer when there is a row. -/
def Database.answers (db : Database K) (selectors : List Symbol) :
    Option (Statement K) → List (Tuple K)
  | none => []
  | some s =>
    if selectors.isEmpty then (if (Statement.rows db s).isEmpty then [] else [[]])
    else Statement.rows db s

/-! ### What is looked up -/

/-- What a key is paired with is found under it, when no key repeats. -/
theorem lookup_eq_some_of_mem {β : Type} {entries : List (String × β)}
    (hnodup : (entries.map Prod.fst).Nodup) {key : String} {value : β} (h : (key, value) ∈ entries) :
    entries.lookup key = some value := by
  induction entries with
  | nil => exact absurd h List.not_mem_nil
  | cons entry entries ih =>
    obtain ⟨key', value'⟩ := entry
    obtain ⟨hfresh, hnodup⟩ := List.nodup_cons.mp hnodup
    rcases List.mem_cons.mp h with heq | hmem
    · obtain ⟨rfl, rfl⟩ := Prod.mk.inj heq
      exact List.lookup_cons_self
    · have hne : key ≠ key' := by
        rintro rfl
        exact hfresh (List.mem_map.mpr ⟨_, hmem, rfl⟩)
      rw [List.lookup_cons, beq_false_of_ne hne]
      exact ih hnodup hmem

omit [Scalar K] in
/-- **A choice of the cross product** has a row for each table, in order. -/
theorem Database.mem_scopes {db : Database K} {sources : List Source} {scope : Scope K} :
    scope ∈ db.scopes sources ↔ List.Forall₂
      (fun s entry => ∃ row ∈ db.rows s.table, entry = db.labelled s row) sources scope := by
  induction sources generalizing scope with
  | nil => rw [scopes, List.mem_singleton, List.forall₂_nil_left_iff]
  | cons s sources ih =>
    rw [scopes, List.mem_flatMap, List.forall₂_cons_left_iff]
    simp only [List.mem_map, ih]
    constructor
    · rintro ⟨row, hrow, rest, hrest, rfl⟩
      exact ⟨_, rest, ⟨row, hrow, rfl⟩, hrest, rfl⟩
    · rintro ⟨_, rest, ⟨row, hrow, rfl⟩, hrest, rfl⟩
      exact ⟨row, hrow, rest, hrest, rfl⟩

/-- **A row of a selection** is read off a choice under which the conditions are true. -/
theorem Selection.mem_rows {db : Database K} {s : Selection K} {t : Tuple K} :
    t ∈ s.rows db ↔ ∃ scope ∈ db.scopes s.sources,
      (∀ c ∈ s.conditions, c.holds db scope = true) ∧ s.row? scope = some t := by
  simp only [rows, mem_distinct, List.mem_filterMap, List.mem_filter, List.all_eq_true, and_assoc]

theorem Statement.mem_rows {db : Database K} {s : Statement K} {t : Tuple K} :
    t ∈ rows db s ↔ ∃ selection ∈ s, t ∈ selection.rows db := by
  rw [rows, mem_distinct, List.mem_flatMap]

/-- A selection of some columns, without a computed value, reads the values of these columns. -/
theorem Selection.row?_eq_some_iff {s : Selection K} (hquantity : s.quantity = none)
    (hcolumns : s.columns ≠ []) {scope : Scope K} {t : Tuple K} : s.row? scope = some t
      ↔ List.Forall₂ (fun p c => p.1.value? scope = some c) s.columns t := by
  rw [← mapM_eq_some_iff (f := fun p : Column × Symbol => p.1.value? scope), row?, hquantity]
  cases hcells : s.columns.mapM (fun p : Column × Symbol => p.1.value? scope) with
  | none => simp
  | some cells =>
    have hne : cells ≠ [] := by
      rintro rfl
      exact hcolumns (List.forall₂_nil_right_iff.mp (mapM_eq_some_iff.mp hcells))
    simp [hne]

/-- A selection of nothing reads the number one. -/
theorem Selection.row?_of_nil {s : Selection K} (hquantity : s.quantity = none)
    (hcolumns : s.columns = []) (scope : Scope K) : s.row? scope = some [.integer 1] := by
  rw [row?, hquantity, hcolumns]
  rfl

end Sql

end RelationalLP
