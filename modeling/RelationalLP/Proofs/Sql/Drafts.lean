import Mathlib
import RelationalLP.Proofs.Logic.Atoms
import RelationalLP.Proofs.Sql.Meaning
import RelationalLP.Proofs.Sql.RememberedColumns
import RelationalLP.Sql.Draft

/-! # Drafts over a database

Making a statement looks up the names of columns, in what is remembered or else in the schema. Where both
name the columns of a database, the draft of a conjunction is the one that the database describes: its
tables are those of the positive atoms, its cells pair the columns of these tables with the arguments of
the atoms, and its absences do the same for the negated atoms. -/

namespace RelationalLP

namespace Sql

variable {K : Type}

namespace Compile

variable {α β : Type} {cache cache' : ColumnCache}

/-- **A successful making of a statement**: from some remembered names to a result and more of them. -/
def Runs (x : Compile Id α) (cache : ColumnCache) (a : α) (cache' : ColumnCache) : Prop :=
  x.run.run cache = (.ok a, cache')

theorem runs_pure {a b : α} : Runs (pure a) cache b cache' ↔ b = a ∧ cache' = cache := by
  constructor
  · intro h
    obtain ⟨ha, hcache⟩ := Prod.mk.inj h
    exact ⟨(Except.ok.inj ha).symm, hcache.symm⟩
  · rintro ⟨rfl, rfl⟩
    rfl

theorem runs_bind {x : Compile Id α} {f : α → Compile Id β} {b : β} :
    Runs (x >>= f) cache b cache' ↔ ∃ a cache₁, Runs x cache a cache₁ ∧ Runs (f a) cache₁ b cache' := by
  have hbind : (x >>= f).run.run cache = match x.run.run cache with
      | (.ok a, cache₁) => (f a).run.run cache₁
      | (.error e, cache₁) => (.error e, cache₁) := by
    rw [ExceptT.run_bind, StateT.run_bind]
    show (match x.run.run cache with | (r, c) => _) = _
    cases h : x.run.run cache with
    | mk r c =>
      cases r with
      | ok a => rfl
      | error e => rfl
  rw [Runs, hbind]
  constructor
  · intro h
    split at h
    · rename_i a cache₁ hx
      exact ⟨a, cache₁, hx, h⟩
    · cases h
  · rintro ⟨a, cache₁, hx, hf⟩
    rw [show x.run.run cache = (.ok a, cache₁) from hx]
    exact hf

theorem not_runs_throw {e : RenderError} {a : α} :
    ¬ Runs (throw e : Compile Id α) cache a cache' := by
  intro h
  cases h

theorem runs_liftExcept {x : Except RenderError α} {a : α} :
    Runs (liftExcept x : Compile Id α) cache a cache' ↔ x = .ok a ∧ cache' = cache := by
  cases x with
  | error e =>
    refine iff_of_false not_runs_throw ?_
    rintro ⟨h, -⟩
    cases h
  | ok b =>
    rw [Except.ok.injEq, eq_comm]
    exact runs_pure

end Compile

/-! ### Names of columns -/

/-- A schema names the columns of a database; it may name more of them. -/
def Database.DescribedBy (db : Database K) (schema : SchemaSource Id) : Prop :=
  ∀ table names, schema table = .ok names → db.columns table <+: names

/-- The names that are remembered are those of a database. -/
def Database.Recalls (db : Database K) (cache : ColumnCache) : Prop :=
  ∀ table names, cache.lookup table = some names → db.columns table <+: names

/-- **What the making of a part of a statement gives** with names of a database remembered, which stay
names of the database. -/
def Compile.Gives {α : Type} (db : Database K) (x : Compile Id α) (P : α → Prop) : Prop :=
  ∀ cache, db.Recalls cache → ∀ a cache', Compile.Runs x cache a cache' → P a ∧ db.Recalls cache'

namespace Compile.Gives

variable {α β : Type} {db : Database K} {P : α → Prop} {Q : β → Prop}

theorem pure {a : α} (h : P a) : Compile.Gives db (Pure.pure a) P := by
  intro cache hcache b cache' hrun
  obtain ⟨rfl, rfl⟩ := runs_pure.mp hrun
  exact ⟨h, hcache⟩

theorem bind {x : Compile Id α} {f : α → Compile Id β} (hx : Compile.Gives db x P)
    (hf : ∀ a, P a → Compile.Gives db (f a) Q) : Compile.Gives db (x >>= f) Q := by
  intro cache hcache b cache' hrun
  obtain ⟨a, cache₁, hrun₁, hrun₂⟩ := runs_bind.mp hrun
  obtain ⟨ha, hcache₁⟩ := hx cache hcache a cache₁ hrun₁
  exact hf a ha cache₁ hcache₁ b cache' hrun₂

theorem lift (x : Except RenderError α) : Compile.Gives db (liftExcept x) (x = .ok ·) := by
  intro cache hcache a cache' hrun
  obtain ⟨hx, rfl⟩ := runs_liftExcept.mp hrun
  exact ⟨hx, hcache⟩

theorem mono {x : Compile Id α} {P' : α → Prop} (hx : Compile.Gives db x P) (h : ∀ a, P a → P' a) :
    Compile.Gives db x P' := by
  intro cache hcache a cache' hrun
  obtain ⟨ha, hcache'⟩ := hx cache hcache a cache' hrun
  exact ⟨h a ha, hcache'⟩

/-- Items are made one by one. -/
theorem mapM {xs : List α} {f : α → Compile Id β} {R : α → β → Prop}
    (h : ∀ x ∈ xs, Compile.Gives db (f x) (R x)) :
    Compile.Gives db (xs.mapM f) (List.Forall₂ R xs) := by
  induction xs with
  | nil => exact pure .nil
  | cons x xs ih =>
    obtain ⟨hx, hxs⟩ := List.forall_mem_cons.mp h
    rw [List.mapM_cons]
    exact hx.bind fun y hy => (ih hxs).bind fun ys hys => pure (.cons hy hys)

/-- Steps that each give what a function gives are together the fold of that function. -/
theorem foldlM {xs : List α} {f : β → α → Compile Id β} {g : β → α → β}
    (h : ∀ x ∈ xs, ∀ d, Compile.Gives db (f d x) (· = g d x)) (d : β) :
    Compile.Gives db (xs.foldlM f d) (· = xs.foldl g d) := by
  induction xs generalizing d with
  | nil => exact pure rfl
  | cons x xs ih =>
    obtain ⟨hx, hxs⟩ := List.forall_mem_cons.mp h
    rw [List.foldlM_cons]
    refine (hx d).bind fun d' hd' => ?_
    rw [hd']
    exact ih hxs (g d x)

end Compile.Gives

variable {db : Database K} {schema : SchemaSource Id}

/-- The names of the columns of a table are those of the database, and possibly more. -/
theorem gives_columnNames (hschema : db.DescribedBy schema) (table : String) :
    Compile.Gives db (columnNames schema table) (db.columns table <+: ·) := by
  intro cache hcache names cache' hrun
  obtain ⟨known, cache₁, hget, hrest⟩ := Compile.runs_bind.mp hrun
  obtain ⟨rfl, rfl⟩ : known = cache ∧ cache₁ = cache := by
    obtain ⟨hknown, hsame⟩ := Prod.mk.inj hget
    exact ⟨(Except.ok.inj hknown).symm, hsame.symm⟩
  cases hlookup : cache₁.lookup table with
  | some found =>
    rw [hlookup] at hrest
    obtain ⟨rfl, rfl⟩ := Compile.runs_pure.mp hrest
    exact ⟨hcache table names hlookup, hcache⟩
  | none =>
    -- the schema is asked, and its answer is remembered
    rw [hlookup] at hrest
    obtain ⟨asked, cache₂, hask, hrest⟩ := Compile.runs_bind.mp hrest
    obtain ⟨hasked, rfl⟩ := Prod.mk.inj hask
    obtain ⟨⟨⟩, cache₃, hmodify, hrest⟩ := Compile.runs_bind.mp hrest
    obtain ⟨-, rfl⟩ := Prod.mk.inj hmodify
    obtain ⟨rfl, rfl⟩ := Compile.runs_pure.mp hrest
    have hnames : db.columns table <+: names := hschema table names hasked
    exact ⟨hnames, ColumnCache.forall_cons hcache hnames⟩

/-- A column of the database is looked up under its name. -/
theorem gives_columnAt (hschema : db.DescribedBy schema) {table : String} {i : ℕ}
    (hi : i < (db.columns table).length) :
    Compile.Gives db (columnAt schema table i) (· = (db.columns table)[i]) := by
  refine (gives_columnNames hschema table).bind fun names hnames => ?_
  have hname : names[i]? = some (db.columns table)[i] := by
    obtain ⟨more, rfl⟩ := hnames
    rw [List.getElem?_append_left hi, List.getElem?_eq_getElem hi]
  rw [hname]
  exact .pure rfl

/-! ### Drafts -/

/-- The cells of an atom under an alias: the columns of its table with its arguments. -/
def Database.cells (db : Database K) (label : String) (a : Atom K) : List (Column × Term K) :=
  ((db.columns a.name).zip a.arguments).map fun (name, t) => (⟨label, name⟩, t)

/-- The alias of a table of the cross product; positions count from zero. -/
def sourceLabel (i : ℕ) : String := "a" ++ toString (i + 1)

/-- The alias of a table that must not have a row. -/
def absenceLabel (i : ℕ) : String := "n" ++ toString (i + 1)

/-- The draft with one more literal. -/
def Database.addLiteral (db : Database K) (d : Draft K) : Literal K → Draft K
  | .positive a =>
    let label := sourceLabel d.sources.length
    { d with sources := d.sources ++ [⟨a.name, label⟩], cells := d.cells ++ db.cells label a }
  | .negative a =>
    let label := absenceLabel d.absences.length
    { d with absences := d.absences ++ [(⟨a.name, label⟩, db.cells label a)] }
  | .compare c => { d with comparisons := d.comparisons ++ [c] }

/-- **The draft of a conjunction over a database.** -/
def Database.draft (db : Database K) (c : Conjunction K) : Draft K := c.foldl db.addLiteral {}

/-- An atom with an argument for each column of its table. -/
def Database.Fits (db : Database K) (a : Atom K) : Prop := a.arity = (db.columns a.name).length

theorem gives_atomCells (hschema : db.DescribedBy schema) (label : String) {a : Atom K}
    (ha : db.Fits a) :
    Compile.Gives db (Draft.atomCells schema label a) (· = db.cells label a) := by
  have hlength : a.arguments.length = (db.columns a.name).length := ha
  have hcell : ∀ p ∈ a.arguments.zipIdx, Compile.Gives db
      (do return ((⟨label, ← columnAt schema a.name p.2⟩, p.1) : Column × Term K))
      fun cell => ∃ name, (db.columns a.name)[p.2]? = some name ∧ cell = (⟨label, name⟩, p.1) := by
    rintro ⟨t, i⟩ hp
    have hi : i < (db.columns a.name).length := hlength ▸ List.snd_lt_of_mem_zipIdx hp
    refine (gives_columnAt hschema hi).bind fun name hname => .pure ⟨name, ?_, rfl⟩
    rw [hname, List.getElem?_eq_getElem hi]
  refine (Compile.Gives.mapM hcell).mono fun cells hcells => ?_
  have hmap : cells = a.arguments.zipIdx.map fun p =>
      ((⟨label, (db.columns a.name)[p.2]?.getD ""⟩, p.1) : Column × Term K) := by
    refine eq_map_of_forall₂ hcells fun p _ cell hp => ?_
    obtain ⟨name, hname, rfl⟩ := hp
    rw [hname, Option.getD_some]
  rw [hmap, Database.cells]
  refine List.ext_getElem (by simp [hlength]) fun i hi _ => ?_
  have hlt : i < (db.columns a.name).length := by simpa [hlength] using hi
  simp [List.getElem?_eq_getElem hlt]

/-- Adding a literal whose atom fits its table adds what the database describes. -/
theorem gives_addLiteral (hschema : db.DescribedBy schema) (d : Draft K) {l : Literal K}
    (hl : ∀ a ∈ l.atom?, db.Fits a) :
    Compile.Gives db (d.addLiteral schema l) (· = db.addLiteral d l) := by
  cases l with
  | positive a =>
    refine (gives_atomCells hschema _ (hl a rfl)).bind fun cells hcells => .pure ?_
    rw [hcells]
    rfl
  | negative a =>
    refine (gives_atomCells hschema _ (hl a rfl)).bind fun cells hcells => .pure ?_
    rw [hcells]
    rfl
  | compare c => exact .pure rfl

/-- **Drafting a conjunction gives its draft over the database**, when its atoms fit their tables. -/
theorem gives_ofConjunction (hschema : db.DescribedBy schema) {c : Conjunction K}
    (hc : ∀ l ∈ c, ∀ a ∈ l.atom?, db.Fits a) :
    Compile.Gives db (Draft.ofConjunction schema c) (· = db.draft c) :=
  Compile.Gives.foldlM (fun l hl d => gives_addLiteral hschema d (hc l hl)) {}

/-- **The parts of a draft**: the tables and cells of the positive atoms, the comparisons, and the tables
and cells of the negated atoms, aliases being numbered in order. -/
theorem Database.draft_eq (db : Database K) (c : Conjunction K) : db.draft c =
    { sources := (c.filterMap Literal.positive?).zipIdx.map fun (a, i) => ⟨a.name, sourceLabel i⟩
      cells := (c.filterMap Literal.positive?).zipIdx.flatMap fun (a, i) =>
        db.cells (sourceLabel i) a
      comparisons := c.filterMap Literal.comparison?
      absences := (c.filterMap Literal.negated?).zipIdx.map fun (a, i) =>
        (⟨a.name, absenceLabel i⟩, db.cells (absenceLabel i) a) } := by
  induction c using List.reverseRecOn with
  | nil => rfl
  | append_singleton c l ih =>
    -- the literal that is added last gets the next alias
    rw [draft, List.foldl_concat, ← draft, ih]
    cases l with
    | positive a => simp [addLiteral, List.filterMap_cons, List.zipIdx_append]
    | negative a => simp [addLiteral, List.filterMap_cons, List.zipIdx_append]
    | compare d => simp [addLiteral, List.filterMap_cons]

theorem Database.comparisons_draft (db : Database K) (c : Conjunction K) :
    (db.draft c).comparisons = c.filterMap Literal.comparison? := by rw [draft_eq]

theorem Database.absences_draft (db : Database K) (c : Conjunction K) :
    (db.draft c).absences = (c.filterMap Literal.negated?).zipIdx.map fun (a, i) =>
      (⟨a.name, absenceLabel i⟩, db.cells (absenceLabel i) a) := by rw [draft_eq]

end Sql

end RelationalLP
