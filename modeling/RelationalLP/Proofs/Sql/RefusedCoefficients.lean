import Mathlib
import RelationalLP.Proofs.Expr.ExactArithmetic
import RelationalLP.Proofs.Sql.Answers

/-! # Coefficients without a text

A coefficient has no text exactly when it has an atom, a sum over answers or a symbol that no positive atom
binds, at any depth. -/

namespace RelationalLP

/-- A positive atom of a conjunction has a symbol among its arguments. -/
def Conjunction.Places {K : Type} (c : Conjunction K) (s : Symbol) : Prop :=
  ∃ a, Literal.positive a ∈ c ∧ Term.var s ∈ a.arguments

namespace Sql

variable {K : Type}

/-! ### Columns of a draft -/

/-- What is made of a list is made of its items one by one. -/
theorem Compile.forall₂_of_runs_mapM {α β : Type} {f : α → Compile Id β} {xs : List α} {ys : List β}
    {cache cache' : ColumnCache} (h : Compile.Runs (xs.mapM f) cache ys cache') :
    List.Forall₂ (fun x y => ∃ known known', Compile.Runs (f x) known y known') xs ys := by
  induction xs generalizing cache cache' ys with
  | nil =>
    obtain ⟨rfl, -⟩ := Compile.runs_pure.mp h
    exact .nil
  | cons x xs ih =>
    rw [List.mapM_cons] at h
    obtain ⟨y, cache₁, hy, h⟩ := Compile.runs_bind.mp h
    obtain ⟨ys', cache₂, hys, h⟩ := Compile.runs_bind.mp h
    obtain ⟨rfl, -⟩ := Compile.runs_pure.mp h
    exact .cons ⟨_, _, hy⟩ (ih hys)

/-- The cells of an atom have its arguments, and columns under the alias. -/
theorem forall₂_of_runs_atomCells {schema : SchemaSource Id} {label : String} {a : Atom K}
    {cells : List (Column × Term K)} {cache cache' : ColumnCache}
    (h : Compile.Runs (Draft.atomCells schema label a) cache cells cache') :
    List.Forall₂ (fun t cell => t = cell.2 ∧ cell.1.label = label) a.arguments cells := by
  have hcells : List.Forall₂ (fun (p : Term K × ℕ) cell => p.1 = cell.2 ∧ cell.1.label = label)
      a.arguments.zipIdx cells := by
    refine (Compile.forall₂_of_runs_mapM h).imp fun p cell hcell => ?_
    obtain ⟨_, _, hcell⟩ := hcell
    obtain ⟨name, _, -, hcell⟩ := Compile.runs_bind.mp hcell
    obtain ⟨rfl, -⟩ := Compile.runs_pure.mp hcell
    exact ⟨rfl, rfl⟩
  rw [← List.zipIdx_map_fst 0 a.arguments, List.forall₂_map_left_iff]
  exact hcells

/-- **The cells of a draft are the arguments of the positive atoms**, under aliases of the cross product. -/
structure Draft.Covers (d : Draft K) (c : Conjunction K) : Prop where
  /-- The terms are the arguments. -/
  terms : d.cells.map Prod.snd = (c.filterMap Literal.positive?).flatMap Atom.arguments
  /-- The columns bear aliases of the cross product. -/
  label : ∀ cell ∈ d.cells, ∃ i, cell.1.label = sourceLabel i

/-- A literal adds the cells of its atom, if it is positive. -/
theorem Draft.Covers.addLiteral {schema : SchemaSource Id} {d d' : Draft K} {c : Conjunction K}
    (hd : d.Covers c) {l : Literal K} {cache cache' : ColumnCache}
    (h : Compile.Runs (d.addLiteral schema l) cache d' cache') : d'.Covers (c ++ [l]) := by
  cases l with
  | positive a =>
    obtain ⟨cells, cache₁, hcells, h⟩ := Compile.runs_bind.mp h
    obtain ⟨rfl, -⟩ := Compile.runs_pure.mp h
    have hcells := forall₂_of_runs_atomCells hcells
    refine ⟨?_, List.forall_mem_append.mpr ⟨hd.label, fun cell hcell => ?_⟩⟩
    · have hterms : cells.map Prod.snd = a.arguments := by
        have heq := map_eq_map_of_forall₂ hcells (f := Prod.snd) (g := id)
          fun t _ cell hcell => hcell.1.symm
        rwa [List.map_id] at heq
      simp [hd.terms, hterms]
    · obtain ⟨t, -, -, hlabel⟩ := exists_of_forall₂_right hcells hcell
      exact ⟨_, hlabel⟩
  | negative a =>
    obtain ⟨cells, cache₁, -, h⟩ := Compile.runs_bind.mp h
    obtain ⟨rfl, -⟩ := Compile.runs_pure.mp h
    refine ⟨?_, hd.label⟩
    simpa [List.filterMap_cons] using hd.terms
  | compare e =>
    obtain ⟨rfl, -⟩ := Compile.runs_pure.mp h
    refine ⟨?_, hd.label⟩
    simpa [List.filterMap_cons] using hd.terms

/-- **The draft of a conjunction covers it**, whatever the schema names the columns. -/
theorem Draft.covers_of_runs {schema : SchemaSource Id} {c : Conjunction K} {d : Draft K}
    {cache cache' : ColumnCache} (h : Compile.Runs (Draft.ofConjunction schema c) cache d cache') :
    d.Covers c := by
  induction c using List.reverseRecOn generalizing d cache' with
  | nil =>
    obtain ⟨rfl, -⟩ := Compile.runs_pure.mp h
    exact ⟨rfl, nofun⟩
  | append_singleton c l ih =>
    rw [ofConjunction, List.foldlM_append] at h
    obtain ⟨d', cache₁, hd', h⟩ := Compile.runs_bind.mp h
    obtain ⟨d'', cache₂, hd'', h⟩ := Compile.runs_bind.mp h
    obtain ⟨rfl, -⟩ := Compile.runs_pure.mp h
    exact (ih hd').addLiteral hd''

/-- **A symbol has a first column exactly when a positive atom binds it.** -/
theorem Draft.Covers.exists_firstColumn_iff {d : Draft K} {c : Conjunction K} (h : d.Covers c)
    (s : Symbol) : (∃ col, d.firstColumn s = .ok col) ↔ c.Places s := by
  have hplaces : c.Places s ↔ Term.var s ∈ d.cells.map Prod.snd := by
    simp only [h.terms, List.mem_flatMap, List.mem_filterMap, Literal.positive?_eq_some_iff,
      exists_eq_right, Conjunction.Places]
  rw [hplaces]
  constructor
  · rintro ⟨col, hcol⟩
    exact List.mem_map_of_mem (f := Prod.snd) (mem_cells_of_lookup (firstColumn_eq_ok_iff.mp hcol))
  · intro hmem
    obtain ⟨⟨col, t⟩, hcell, rfl⟩ := List.mem_map.mp hmem
    cases hlookup : d.symbolColumns.lookup s with
    | some first => exact ⟨first, firstColumn_eq_ok_iff.mpr hlookup⟩
    | none =>
      have hnone := List.lookup_eq_none_iff.mp hlookup (s, col) (mem_symbolColumns.mpr hcell)
      rw [bne_self_eq_false] at hnone
      cases hnone

/-! ### Parts that are refused -/

variable [Scalar K]

/-- **Why a part of a coefficient has no text**: it is an atom, a sum over answers, or a symbol that no
positive atom binds. -/
inductive Refuses (c : Conjunction K) : Expr K → RenderError → Prop where
  /-- An atom. -/
  | atom (a : Atom K) : Refuses c (.atom a) (.unsupportedCoefficient a.render)
  /-- A sum over answers. -/
  | sum (q : Query K) (body : Expr K) :
      Refuses c (.sum q body) (.unsupportedCoefficient (Expr.sum q body).render)
  /-- A symbol without a positive atom. -/
  | symbol {s : Symbol} (h : ¬ c.Places s) : Refuses c (.symbol s) (.unboundSymbol s.name)

variable {d : Draft K} {c : Conjunction K}

/-- A symbol without a first column is refused. -/
theorem Draft.Covers.quantity_symbol (h : d.Covers c) {s : Symbol} (hs : ¬ c.Places s) :
    d.quantity (.symbol s) = .error (.unboundSymbol s.name) := by
  rw [← h.exists_firstColumn_iff, Draft.firstColumn] at hs
  rw [Draft.quantity, Draft.firstColumn]
  cases hlookup : d.symbolColumns.lookup s with
  | none => rfl
  | some col =>
    rw [hlookup] at hs
    exact absurd ⟨col, rfl⟩ hs

theorem Draft.quantities_eq_ok_iff {es : List (Expr K)} {qs : List (Quantity K)} :
    d.quantities es = .ok qs ↔ List.Forall₂ (fun e q => d.quantity e = .ok q) es qs := by
  induction es generalizing qs with
  | nil =>
    rw [quantities, List.forall₂_nil_left_iff, Except.ok.injEq, eq_comm]
  | cons e es ih =>
    rw [quantities, List.forall₂_cons_left_iff]
    simp only [bind_eq_ok_iff, ih]
    constructor
    · rintro ⟨q, hq, qs', hqs, heq⟩
      exact ⟨q, qs', hq, hqs, (Except.ok.inj heq).symm⟩
    · rintro ⟨q, qs', hq, hqs, rfl⟩
      exact ⟨q, hq, qs', hqs, rfl⟩

/-- A part that is refused takes the text from the whole. -/
theorem Draft.Covers.exists_error_of_partOf (h : d.Covers c) {part e : Expr K} {err : RenderError}
    (hpart : part.PartOf e) (hrefused : Refuses c part err) : ∃ err, d.quantity e = .error err := by
  -- the first error among terms or factors may be about another one of them
  have hlist : ∀ {e : Expr K} {es : List (Expr K)}, e ∈ es → (∃ err, d.quantity e = .error err) →
      ∃ err, d.quantities es = .error err := by
    rintro e es he ⟨err, herr⟩
    cases hes : d.quantities es with
    | error err' => exact ⟨err', rfl⟩
    | ok qs =>
      obtain ⟨q, -, hq⟩ := exists_of_forall₂_left (Draft.quantities_eq_ok_iff.mp hes) he
      rw [herr] at hq
      cases hq
  induction hpart with
  | self =>
    cases hrefused with
    | atom a => exact ⟨_, rfl⟩
    | sum q body => exact ⟨_, rfl⟩
    | symbol hs => exact ⟨_, h.quantity_symbol hs⟩
  | add he _ ih =>
    obtain ⟨err, herr⟩ := hlist he ih
    exact ⟨err, map_eq_error_iff.mpr herr⟩
  | mul he _ ih =>
    obtain ⟨err, herr⟩ := hlist he ih
    exact ⟨err, map_eq_error_iff.mpr herr⟩
  | sum _ _ => exact ⟨_, rfl⟩

mutual

/-- **An error is about a part of the coefficient** that is refused. -/
theorem Draft.Covers.exists_refused (h : d.Covers c) :
    (e : Expr K) → ∀ err, d.quantity e = .error err → ∃ part, part.PartOf e ∧ Refuses c part err
  | .constant v, err, herr => nomatch herr
  | .symbol s, err, herr => by
    have hs : ¬ c.Places s := by
      rw [← h.exists_firstColumn_iff]
      rintro ⟨col, hcol⟩
      rw [Draft.quantity, hcol] at herr
      cases herr
    rw [h.quantity_symbol hs] at herr
    obtain rfl := Except.error.inj herr
    exact ⟨_, .self, .symbol hs⟩
  | .atom a, err, herr => by
    obtain rfl := Except.error.inj herr
    exact ⟨_, .self, .atom a⟩
  | .sum q body, err, herr => by
    obtain rfl := Except.error.inj herr
    exact ⟨_, .self, .sum q body⟩
  | .add es, err, herr => by
    have hes : d.quantities es = .error err := map_eq_error_iff.mp herr
    obtain ⟨e, he, part, hpart, hrefused⟩ := h.exists_refusedList es err hes
    exact ⟨part, .add he hpart, hrefused⟩
  | .mul es, err, herr => by
    have hes : d.quantities es = .error err := map_eq_error_iff.mp herr
    obtain ⟨e, he, part, hpart, hrefused⟩ := h.exists_refusedList es err hes
    exact ⟨part, .mul he hpart, hrefused⟩

theorem Draft.Covers.exists_refusedList (h : d.Covers c) :
    (es : List (Expr K)) → ∀ err, d.quantities es = .error err →
      ∃ e ∈ es, ∃ part, part.PartOf e ∧ Refuses c part err
  | [], err, herr => nomatch herr
  | e :: es, err, herr => by
    rcases bind_eq_error_iff.mp herr with hq | ⟨q, -, herr⟩
    · exact ⟨e, List.mem_cons_self, h.exists_refused e err hq⟩
    · -- the first term has a text, so the error is that of the others
      rcases bind_eq_error_iff.mp herr with hqs | ⟨qs, -, hpure⟩
      · obtain ⟨e', he', hpart⟩ := h.exists_refusedList es err hqs
        exact ⟨e', List.mem_cons_of_mem _ he', hpart⟩
      · cases hpure

end

end Sql

end RelationalLP
