import Mathlib
import RelationalLP.Proofs.Collections.Traversal
import RelationalLP.Proofs.Logic.Atoms
import RelationalLP.Proofs.Sql.RememberedColumns
import RelationalLP.Proofs.Sql.ShownTexts
import RelationalLP.Sql.Draft

/-! # What a draft records

With any schema, and with any names remembered, a draft records the arguments of the positive atoms of its
conjunction, the comparisons, and the arguments of the negated atoms. Its columns bear names that the schema
gives or that are remembered, and its tables the names of the atoms. -/

namespace RelationalLP

namespace Sql

variable {K σ : Type}

/-! ### Names of columns -/

/-- The names that are remembered have a property. -/
def ColumnCache.Only (N : String → Prop) (cache : ColumnCache) : Prop :=
  ∀ table names, cache.lookup table = some names → ∀ name ∈ names, N name

theorem ColumnCache.Only.cons {N : String → Prop} {cache : ColumnCache} (h : cache.Only N)
    {table : String} {names : List String} (hnames : ∀ name ∈ names, N name) :
    ColumnCache.Only N ((table, names) :: cache) := ColumnCache.forall_cons h hnames

/-- The names that a schema gives have a property. -/
def SchemaSource.Only (N : String → Prop) (schema : SchemaSource (StateM σ)) : Prop :=
  ∀ table s names s', (schema table).run.run s = (.ok names, s') → ∀ name ∈ names, N name

theorem ColumnCache.only_true (cache : ColumnCache) : cache.Only fun _ => True :=
  fun _ _ _ _ _ => trivial

theorem SchemaSource.only_true (schema : SchemaSource (StateM σ)) : schema.Only fun _ => True :=
  fun _ _ _ _ _ _ _ => trivial

namespace Compile

variable {α β : Type} {N : String → Prop}

/-- **What a success gives** when the remembered names have a property, which they keep. -/
def Ensures (N : String → Prop) (x : Compile (StateM σ) α) (P : α → Prop) : Prop :=
  ∀ cache s a cache' s', (x.run.run cache).run s = ((.ok a, cache'), s') → cache.Only N →
    P a ∧ cache'.Only N

namespace Ensures

variable {P : α → Prop} {Q : β → Prop}

theorem pure {a : α} (h : P a) : Ensures N (Pure.pure a : Compile (StateM σ) α) P := by
  intro cache s b cache' s' hrun hcache
  obtain ⟨hb, rfl⟩ := Prod.mk.inj (Prod.mk.inj hrun).1
  exact ⟨Except.ok.inj hb ▸ h, hcache⟩

theorem throw (e : RenderError) : Ensures N (MonadExcept.throw e : Compile (StateM σ) α) P := by
  intro cache s b cache' s' hrun
  cases (Prod.mk.inj (Prod.mk.inj hrun).1).1

theorem bind {x : Compile (StateM σ) α} {f : α → Compile (StateM σ) β} (hx : Ensures N x P)
    (hf : ∀ a, P a → Ensures N (f a) Q) : Ensures N (x >>= f) Q := by
  intro cache s b cache' s' hrun hcache
  rw [run_bind] at hrun
  split at hrun
  · rename_i a cache₁ s₁ hfirst
    obtain ⟨ha, hcache₁⟩ := hx cache s a cache₁ s₁ hfirst hcache
    exact hf a ha cache₁ s₁ b cache' s' hrun hcache₁
  · cases (Prod.mk.inj (Prod.mk.inj hrun).1).1

theorem lift (x : Except RenderError α) :
    Ensures N (liftExcept x : Compile (StateM σ) α) (x = .ok ·) := by
  cases x with
  | ok a => exact pure rfl
  | error e => exact throw e

theorem mono {x : Compile (StateM σ) α} {P' : α → Prop} (hx : Ensures N x P) (h : ∀ a, P a → P' a) :
    Ensures N x P' := fun cache s a cache' s' hrun hcache =>
  (hx cache s a cache' s' hrun hcache).imp_left (h a)

/-- Items are made one by one. -/
theorem mapM {xs : List α} {f : α → Compile (StateM σ) β} {R : α → β → Prop}
    (h : ∀ x ∈ xs, Ensures N (f x) (R x)) : Ensures N (xs.mapM f) (List.Forall₂ R xs) := by
  induction xs with
  | nil => exact pure .nil
  | cons x xs ih =>
    obtain ⟨hx, hxs⟩ := List.forall_mem_cons.mp h
    rw [List.mapM_cons]
    exact hx.bind fun y hy => (ih hxs).bind fun ys hys => pure (.cons hy hys)

end Ensures

end Compile

open Compile (Ensures)

variable {N : String → Prop} {schema : SchemaSource (StateM σ)}

/-- The columns of a table bear names that the schema gives, now or before. -/
theorem ensures_columnNames (hschema : schema.Only N) (table : String) :
    Ensures N (columnNames schema table) (∀ name ∈ ·, N name) := by
  intro cache s names cache' s' hrun hcache
  have hget : ((get : Compile (StateM σ) ColumnCache).run.run cache).run s = ((.ok cache, cache), s) := rfl
  rw [columnNames, Compile.run_bind, hget] at hrun
  dsimp only at hrun
  cases hlookup : cache.lookup table with
  | some known =>
    rw [hlookup] at hrun
    obtain ⟨hnames, rfl⟩ := Prod.mk.inj (Prod.mk.inj hrun).1
    exact ⟨Except.ok.inj hnames ▸ hcache table known hlookup, hcache⟩
  | none =>
    -- the schema is asked, and its answer is remembered
    have hlift : ((ExceptT.mk (StateT.lift (schema table).run) :
        Compile (StateM σ) (List String)).run.run cache).run s
        = ((((schema table).run.run s).1, cache), ((schema table).run.run s).2) := rfl
    rw [hlookup] at hrun
    dsimp only at hrun
    rw [Compile.run_bind, hlift] at hrun
    cases hasked : (schema table).run.run s with
    | mk r s₁ =>
      rw [hasked] at hrun
      cases r with
      | error e => cases (Prod.mk.inj (Prod.mk.inj hrun).1).1
      | ok asked =>
        obtain ⟨hnames, rfl⟩ := Prod.mk.inj (Prod.mk.inj hrun).1
        have hnew : ∀ name ∈ asked, N name := hschema table s asked s₁ hasked
        exact ⟨Except.ok.inj hnames ▸ hnew, hcache.cons hnew⟩

theorem ensures_columnAt (hschema : schema.Only N) (table : String) (index : ℕ) :
    Ensures N (columnAt schema table index) N := by
  refine (ensures_columnNames hschema table).bind fun names hnames => ?_
  cases hname : names[index]? with
  | some name => exact .pure (hnames name (List.mem_of_getElem? hname))
  | none => exact .throw _

/-! ### Literals of a conjunction -/

/-- The cells of an atom have its arguments, and columns under a plain alias. -/
theorem ensures_atomCells (hschema : schema.Only N) {label : String} (hlabel : Plain label)
    (a : Atom K) : Ensures N (Draft.atomCells schema label a) fun cells =>
      cells.map Prod.snd = a.arguments ∧ ∀ cell ∈ cells, Plain cell.1.label ∧ N cell.1.name := by
  have hcell : ∀ p ∈ a.arguments.zipIdx, Ensures N
      (do return ((⟨label, ← columnAt schema a.name p.2⟩, p.1) : Column × Term K))
      fun cell => cell.2 = p.1 ∧ Plain cell.1.label ∧ N cell.1.name := fun p _ =>
    (ensures_columnAt hschema a.name p.2).bind fun name hname => .pure ⟨rfl, hlabel, hname⟩
  refine (Compile.Ensures.mapM hcell).mono fun cells hcells => ⟨?_, fun cell hcell => ?_⟩
  · rw [map_eq_map_of_forall₂ hcells (g := Prod.fst) fun p _ cell h => h.1, List.zipIdx_map_fst]
  · obtain ⟨p, -, -, h⟩ := exists_of_forall₂_right hcells hcell
    exact h

/-- **What a draft records of a conjunction**: the arguments of its positive atoms, its comparisons and the
arguments of its negated atoms, in columns and tables whose names have a property. -/
structure Draft.Records (N : String → Prop) (d : Draft K) (c : Conjunction K) : Prop where
  /-- The terms of the positive atoms. -/
  terms : d.cells.map Prod.snd = (c.filterMap Literal.positive?).flatMap Atom.arguments
  /-- The comparisons. -/
  comparisons : d.comparisons = c.filterMap Literal.comparison?
  /-- The terms of the negated atoms. -/
  absences : d.absences.flatMap (fun a => a.2.map Prod.snd)
    = (c.filterMap Literal.negated?).flatMap Atom.arguments
  /-- The columns of the positive atoms. -/
  columns : ∀ cell ∈ d.cells, Plain cell.1.label ∧ N cell.1.name
  /-- The tables of the positive atoms. -/
  sources : ∀ t ∈ d.sources, Plain t.label ∧ N t.table
  /-- The tables and columns of the negated atoms. -/
  absent : ∀ a ∈ d.absences, (Plain a.1.label ∧ N a.1.table)
    ∧ ∀ cell ∈ a.2, Plain cell.1.label ∧ N cell.1.name

/-- A literal adds its atom or its comparison. -/
theorem ensures_addLiteral (hschema : schema.Only N) {d : Draft K} {c : Conjunction K}
    (hd : d.Records N c) {l : Literal K} (hl : ∀ a ∈ l.atom?, N a.name) :
    Ensures N (d.addLiteral schema l) (·.Records N (c ++ [l])) := by
  cases l with
  | positive a =>
    have hlabel : Plain ("a" ++ toString (d.sources.length + 1)) :=
      Plain.append (by decide) (plain_toString_nat _)
    refine (ensures_atomCells hschema hlabel a).bind fun cells ⟨hterms, hcells⟩ => .pure ?_
    exact {
      terms := by simp [hd.terms, hterms]
      comparisons := by simp [hd.comparisons, List.filterMap_cons]
      absences := by simp [hd.absences, List.filterMap_cons]
      columns := List.forall_mem_append.mpr ⟨hd.columns, hcells⟩
      sources := List.forall_mem_append.mpr
        ⟨hd.sources, List.forall_mem_singleton.mpr ⟨hlabel, hl a rfl⟩⟩
      absent := hd.absent }
  | negative a =>
    have hlabel : Plain ("n" ++ toString (d.absences.length + 1)) :=
      Plain.append (by decide) (plain_toString_nat _)
    refine (ensures_atomCells hschema hlabel a).bind fun cells ⟨hterms, hcells⟩ => .pure ?_
    exact {
      terms := by simp [hd.terms, List.filterMap_cons]
      comparisons := by simp [hd.comparisons, List.filterMap_cons]
      absences := by simp [hd.absences, hterms]
      columns := hd.columns
      sources := hd.sources
      absent := List.forall_mem_append.mpr
        ⟨hd.absent, List.forall_mem_singleton.mpr ⟨⟨hlabel, hl a rfl⟩, hcells⟩⟩ }
  | compare e =>
    exact .pure {
      terms := by simp [hd.terms, List.filterMap_cons]
      comparisons := by simp [hd.comparisons]
      absences := by simp [hd.absences, List.filterMap_cons]
      columns := hd.columns
      sources := hd.sources
      absent := hd.absent }

/-- **The draft of a conjunction records all its literals**, whatever the schema names the columns. -/
theorem ensures_ofConjunction (hschema : schema.Only N) {c : Conjunction K}
    (hc : ∀ l ∈ c, ∀ a ∈ l.atom?, N a.name) :
    Ensures N (Draft.ofConjunction schema c) (·.Records N c) := by
  -- the literals are added from the left, so the last one comes on top of a draft of those before it
  induction c using List.reverseRecOn with
  | nil => exact .pure ⟨rfl, rfl, rfl, nofun, nofun, nofun⟩
  | append_singleton c l ih =>
    obtain ⟨hbefore, hlast⟩ := List.forall_mem_append.mp hc
    rw [Draft.ofConjunction, List.foldlM_append]
    refine (ih hbefore).bind fun d hd => ?_
    rw [List.foldlM_cons]
    refine (ensures_addLiteral hschema hd (List.forall_mem_singleton.mp hlast)).bind fun d' hd' => ?_
    exact .pure hd'

end Sql

end RelationalLP
