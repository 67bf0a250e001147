import Mathlib
import RelationalLP.Proofs.Facts.SatisfyingAssignments
import RelationalLP.Proofs.Logic.ConstantValues
import RelationalLP.Proofs.Logic.Conjunctions

/-! # The order of a join

A join of atoms is a choice of one row for each atom such that terms meet cells of their values: a constant
has the value of its cell, and the cells of one variable have one value. This does not depend on the order
of the atoms, as long as having one value is transitive among the cells. Only which of the equal cells a
variable is bound to depends on it. -/

namespace RelationalLP

variable {K : Type}

/-- **Constants in classes of one value.** -/
structure Constant.Classes [Scalar K] (cs : List (Constant K)) : Prop where
  /-- Having one value goes both ways. -/
  symm : ∀ x ∈ cs, ∀ y ∈ cs, x.sameValue y = true → y.sameValue x = true
  /-- Having one value carries over a third constant. -/
  trans : ∀ x ∈ cs, ∀ y ∈ cs, ∀ z ∈ cs, x.sameValue y = true → y.sameValue z = true →
    x.sameValue z = true

namespace FactBase

/-! ### Places -/

/-- A term of an atom and the cell that it meets. -/
abbrev Place (K : Type) := Term K × Constant K

/-- **Places that fit**: terms have the values of their cells. -/
structure Fits [Scalar K] (ps : List (Place K)) : Prop where
  /-- A constant has the value of its cell. -/
  const : ∀ d c, (.const d, c) ∈ ps → d.sameValue c = true
  /-- The cells of a variable have one value. -/
  var : ∀ s c d, (.var s, c) ∈ ps → (.var s, d) ∈ ps → c.sameValue d = true

/-- A binding drawn from places: each variable is bound to the cell of one of its places. -/
structure Drawn (b : Binding K) (ps : List (Place K)) : Prop where
  /-- Variables are bound to cells of their places. -/
  cell : ∀ s c, b.get? s = some c → (.var s, c) ∈ ps
  /-- The variables of the places are bound. -/
  bound : ∀ s c, (.var s, c) ∈ ps → (b.get? s).isSome

variable {b b' : Binding K} {ps qs : List (Place K)} {cs : List (Constant K)}

theorem drawn_empty : Drawn (.empty : Binding K) [] := ⟨nofun, nofun⟩

theorem Drawn.concat_const (h : Drawn b ps) (d c : Constant K) : Drawn b (ps ++ [(.const d, c)]) :=
  ⟨fun s c' hs => List.mem_append_left _ (h.cell s c' hs), fun s c' hmem => by
    simp only [List.mem_append, List.mem_singleton, Prod.mk.injEq, reduceCtorEq, false_and, or_false]
      at hmem
    exact h.bound s c' hmem⟩

/-- A bound variable keeps its cell. -/
theorem Drawn.concat_bound (h : Drawn b ps) {s : Symbol} (hs : (b.get? s).isSome) (c : Constant K) :
    Drawn b (ps ++ [(.var s, c)]) := by
  refine ⟨fun t c' ht => List.mem_append_left _ (h.cell t c' ht), fun t c' hmem => ?_⟩
  rcases List.mem_append.mp hmem with hmem | hmem
  · exact h.bound t c' hmem
  · cases List.mem_singleton.mp hmem
    exact hs

/-- A variable that is bound gets its cell. -/
theorem Drawn.concat_bind (h : Drawn b ps) (s : Symbol) (c : Constant K) :
    Drawn (b.bind s c) (ps ++ [(.var s, c)]) := by
  constructor
  · intro t c' ht
    rw [Binding.get?_bind] at ht
    split at ht
    · rename_i heq
      cases heq
      cases Option.some.inj ht
      exact List.mem_append_right _ (List.mem_singleton_self _)
    · exact List.mem_append_left _ (h.cell t c' ht)
  · intro t c' hmem
    rw [Binding.get?_bind]
    split
    · rfl
    · rename_i hne
      rcases List.mem_append.mp hmem with hmem | hmem
      · exact h.bound t c' hmem
      · cases List.mem_singleton.mp hmem
        exact absurd rfl hne

/-- The places of atoms and rows. -/
def places (choice : List (Atom K × Tuple K)) : List (Place K) :=
  choice.flatMap fun p => p.1.arguments.zip p.2

theorem places_concat (choice : List (Atom K × Tuple K)) (a : Atom K) (row : Tuple K) :
    places (choice ++ [(a, row)]) = places choice ++ a.arguments.zip row := by
  rw [places, List.flatMap_append, List.flatMap_singleton]
  rfl

variable [Scalar K]

theorem fits_nil : Fits ([] : List (Place K)) := ⟨nofun, nofun⟩

/-- Fewer places fit as well. -/
theorem Fits.mono (h : Fits qs) (hsub : ps ⊆ qs) : Fits ps :=
  ⟨fun d c hc => h.const d c (hsub hc), fun s c d hc hd => h.var s c d (hsub hc) (hsub hd)⟩

/-- One more constant fits when it has the value of its cell. -/
theorem Fits.concat_const (h : Fits ps) {d c : Constant K} (hd : d.sameValue c = true) :
    Fits (ps ++ [(.const d, c)]) := by
  constructor
  · intro d' c' hmem
    rcases List.mem_append.mp hmem with hmem | hmem
    · exact h.const d' c' hmem
    · cases List.mem_singleton.mp hmem
      exact hd
  · intro s c' d' hc hd
    simp only [List.mem_append, List.mem_singleton, Prod.mk.injEq, reduceCtorEq, false_and, or_false]
      at hc hd
    exact h.var s c' d' hc hd

/-- One more cell of a variable fits when it has the value of the cells before it. -/
theorem Fits.concat_var (h : Fits ps) {s : Symbol} {c : Constant K}
    (hc : ∀ d, (.var s, d) ∈ ps → d.sameValue c = true ∧ c.sameValue d = true) :
    Fits (ps ++ [(.var s, c)]) := by
  constructor
  · intro d' c' hmem
    simp only [List.mem_append, List.mem_singleton, Prod.mk.injEq, reduceCtorEq, false_and, or_false]
      at hmem
    exact h.const d' c' hmem
  · intro t c' d' hc' hd'
    simp only [List.mem_append, List.mem_singleton, Prod.mk.injEq, Term.var.injEq] at hc' hd'
    rcases hc' with hc' | ⟨rfl, rfl⟩
    · rcases hd' with hd' | ⟨rfl, rfl⟩
      · exact h.var t c' d' hc' hd'
      · exact (hc c' hc').1
    · rcases hd' with hd' | ⟨-, rfl⟩
      · exact (hc d' hd').2
      · exact Constant.sameValue_self _

/-! ### Unification -/

/-- A constant passes a cell of its value. -/
theorem unify_const (b : Binding K) (d c : Constant K) (ts : List (Term K)) (row : Tuple K) :
    unify b (.const d :: ts) (c :: row) = if d.sameValue c then unify b ts row else none := by
  rw [unify]

/-- A bound variable passes a cell of its value. -/
theorem unify_bound {s : Symbol} {d : Constant K} (h : b.get? s = some d) (c : Constant K)
    (ts : List (Term K)) (row : Tuple K) :
    unify b (.var s :: ts) (c :: row) = if d.sameValue c then unify b ts row else none := by
  rw [unify, h]

/-- An unbound variable gets the cell. -/
theorem unify_unbound {s : Symbol} (h : b.get? s = none) (c : Constant K) (ts : List (Term K))
    (row : Tuple K) : unify b (.var s :: ts) (c :: row) = unify (b.bind s c) ts row := by
  rw [unify, h]

theorem unify_nil (b : Binding K) (ts : List (Term K)) : unify b ts [] = some b := by
  cases ts with
  | nil => simp [unify]
  | cons t ts => cases t <;> simp [unify]

/-- Variables that are bound may be replaced by their cells before unification. -/
theorem unify_map_substitute {b₀ : Binding K} (hext : Valuation.Extends b.get? b₀.get?)
    (ts : List (Term K)) (row : Tuple K) :
    unify b (ts.map (Term.substitute b₀)) row = unify b ts row := by
  induction ts generalizing b row with
  | nil => rfl
  | cons t ts ih =>
    cases row with
    | nil => rw [unify_nil, unify_nil]
    | cons c row =>
      rw [List.map_cons]
      cases t with
      | const d => rw [Term.substitute, unify_const, unify_const, ih hext]
      | var s =>
        cases hs : b₀.get? s with
        | some d =>
          rw [Term.substitute_eq_const (by exact hs), unify_const, unify_bound (hext s d hs), ih hext]
        | none =>
          rw [Term.substitute_eq_self (by exact hs)]
          cases hb : b.get? s with
          | some d => rw [unify_bound hb, unify_bound hb, ih hext]
          | none =>
            rw [unify_unbound hb, unify_unbound hb, ih ((Binding.extends_bind hb c).trans hext)]

/-- A variable that no place has fits with any cell. -/
theorem Fits.concat_unbound (h : Fits ps) (hb : Drawn b ps) {s : Symbol} (hs : b.get? s = none)
    (c : Constant K) : Fits (ps ++ [(.var s, c)]) := by
  refine h.concat_var fun d hd => ?_
  have hsome := hb.bound s d hd
  rw [hs] at hsome
  cases hsome

/-- A bound variable fits with a cell that has the value of its constant: all its cells have that value. -/
theorem Fits.concat_bound (h : Fits ps) (hcs : Constant.Classes cs) (hcells : ∀ p ∈ ps, p.2 ∈ cs)
    (hb : Drawn b ps) {s : Symbol} {c d : Constant K} (hs : b.get? s = some d) (hc : c ∈ cs)
    (hd : d.sameValue c = true) : Fits (ps ++ [(.var s, c)]) := by
  have hmem := hb.cell s d hs
  refine h.concat_var fun x hx => ?_
  have hxc := hcs.trans x (hcells _ hx) d (hcells _ hmem) c hc (h.var s x d hx hmem) hd
  exact ⟨hxc, hcs.symm x (hcells _ hx) c hc hxc⟩

/-- **What unification accepts fits**, and the binding that it gives is drawn from the places. -/
theorem fits_of_unify (hcs : Constant.Classes cs) {ts : List (Term K)} {row : Tuple K}
    (hcells : ∀ p ∈ ps, p.2 ∈ cs) (hrow : ∀ c ∈ row, c ∈ cs) (hlen : row.length = ts.length)
    (hfits : Fits ps) (hb : Drawn b ps) (h : unify b ts row = some b') :
    Fits (ps ++ ts.zip row) ∧ Drawn b' (ps ++ ts.zip row) := by
  induction ts generalizing b ps row with
  | nil =>
    obtain rfl := List.length_eq_zero_iff.mp hlen
    rw [unify_nil] at h
    obtain rfl := Option.some.inj h
    rw [List.zip_nil_left, List.append_nil]
    exact ⟨hfits, hb⟩
  | cons t ts ih =>
    cases row with
    | nil => cases hlen
    | cons c row =>
      obtain ⟨hc, hrow⟩ := List.forall_mem_cons.mp hrow
      have hcells' : ∀ p ∈ ps ++ [(t, c)], p.2 ∈ cs := fun p hp =>
        (List.mem_append.mp hp).elim (hcells p) fun hp => (List.mem_singleton.mp hp).symm ▸ hc
      rw [List.zip_cons_cons, List.append_cons]
      cases t with
      | const d =>
        rw [unify_const] at h
        split at h
        · rename_i hd
          exact ih hcells' hrow (Nat.succ.inj hlen) (hfits.concat_const hd) (hb.concat_const d c) h
        · cases h
      | var s =>
        cases hs : b.get? s with
        | none =>
          rw [unify_unbound hs] at h
          exact ih hcells' hrow (Nat.succ.inj hlen) (hfits.concat_unbound hb hs c)
            (hb.concat_bind s c) h
        | some d =>
          rw [unify_bound hs] at h
          split at h
          · rename_i hd
            exact ih hcells' hrow (Nat.succ.inj hlen) (hfits.concat_bound hcs hcells hb hs hc hd)
              (hb.concat_bound (by rw [hs]; rfl) c) h
          · cases h

/-- **What fits is accepted by unification**, which gives a binding drawn from the places. -/
theorem exists_unify_of_fits {ts : List (Term K)} {row : Tuple K} (hlen : row.length = ts.length)
    (hb : Drawn b ps) (hfits : Fits (ps ++ ts.zip row)) :
    ∃ b', unify b ts row = some b' ∧ Drawn b' (ps ++ ts.zip row) := by
  induction ts generalizing b ps row with
  | nil =>
    obtain rfl := List.length_eq_zero_iff.mp hlen
    rw [List.zip_nil_left, List.append_nil]
    exact ⟨b, unify_nil b [], hb⟩
  | cons t ts ih =>
    cases row with
    | nil => cases hlen
    | cons c row =>
      rw [List.zip_cons_cons, List.append_cons] at hfits ⊢
      have hplace : (t, c) ∈ ps ++ [(t, c)] ++ ts.zip row :=
        List.mem_append_left _ (List.mem_append_right _ (List.mem_singleton_self _))
      cases t with
      | const d =>
        rw [unify_const, if_pos (hfits.const d c hplace)]
        exact ih (Nat.succ.inj hlen) (hb.concat_const d c) hfits
      | var s =>
        cases hs : b.get? s with
        | none =>
          rw [unify_unbound hs]
          exact ih (Nat.succ.inj hlen) (hb.concat_bind s c) hfits
        | some d =>
          -- a bound variable has an earlier place with the cell that it is bound to
          have hmem : (.var s, d) ∈ ps ++ [(.var s, c)] ++ ts.zip row :=
            List.mem_append_left _ (List.mem_append_left _ (hb.cell s d hs))
          rw [unify_bound hs, if_pos (hfits.var s d c hmem hplace)]
          exact ih (Nat.succ.inj hlen) (hb.concat_bound (by rw [hs]; rfl) c) hfits

/-! ### Choices of rows -/

/-- **A choice of rows that joins some atoms**: one stored row for each atom, so that the places fit. -/
structure Joins (fb : FactBase K) (atoms : List (Atom K)) (choice : List (Atom K × Tuple K)) :
    Prop where
  /-- The rows are chosen for the atoms, in order. -/
  atoms_eq : choice.map Prod.fst = atoms
  /-- They are rows of the relations of the atoms. -/
  stored : ∀ p ∈ choice, p.2 ∈ fb.rows p.1.name
  /-- They have the lengths of the atoms. -/
  length_eq : ∀ p ∈ choice, p.2.length = p.1.arity
  /-- Terms have the values of their cells. -/
  fits : Fits (places choice)

variable {fb : FactBase K} {atoms others : List (Atom K)} {choice : List (Atom K × Tuple K)}

/-- The cells of places are constants of the facts. -/
theorem Joins.cells (h : fb.Joins atoms choice) : ∀ p ∈ places choice, p.2 ∈ fb.constants := by
  intro p hp
  obtain ⟨q, hq, hmem⟩ := List.mem_flatMap.mp hp
  exact mem_constants (h.stored q hq) (List.of_mem_zip hmem).2

/-- **Every binding of a join is drawn from a choice of rows.** -/
theorem exists_joins_of_mem (hcs : Constant.Classes fb.constants)
    (h : b ∈ atoms.foldl fb.join [.empty]) :
    ∃ choice, fb.Joins atoms choice ∧ Drawn b (places choice) := by
  induction atoms using List.reverseRecOn generalizing b with
  | nil =>
    obtain rfl := List.mem_singleton.mp h
    exact ⟨[], ⟨rfl, nofun, nofun, fits_nil⟩, drawn_empty⟩
  | append_singleton atoms a ih =>
    rw [List.foldl_concat] at h
    obtain ⟨b₀, hb₀, row, hrow, hlen, hunify⟩ := mem_join.mp h
    obtain ⟨choice, hchoice, hdrawn⟩ := ih hb₀
    rw [Atom.substitute, unify_map_substitute (.refl _)] at hunify
    obtain ⟨hfits, hdrawn'⟩ := fits_of_unify hcs hchoice.cells (fun c hc => mem_constants hrow hc) hlen
      hchoice.fits hdrawn hunify
    rw [← places_concat] at hfits hdrawn'
    refine ⟨choice ++ [(a, row)], ⟨?_, ?_, ?_, hfits⟩, hdrawn'⟩
    · rw [List.map_append, hchoice.atoms_eq]
      rfl
    · exact List.forall_mem_append.mpr ⟨hchoice.stored, List.forall_mem_singleton.mpr hrow⟩
    · exact List.forall_mem_append.mpr ⟨hchoice.length_eq, List.forall_mem_singleton.mpr hlen⟩

/-- **Every choice of rows that joins the atoms is found.** -/
theorem Joins.exists_mem (h : fb.Joins atoms choice) :
    ∃ b ∈ atoms.foldl fb.join [.empty], Drawn b (places choice) := by
  induction atoms using List.reverseRecOn generalizing choice with
  | nil =>
    obtain rfl := List.map_eq_nil_iff.mp h.atoms_eq
    exact ⟨.empty, List.mem_singleton_self _, drawn_empty⟩
  | append_singleton atoms a ih =>
    obtain ⟨choice, last, rfl, hatoms, hlast⟩ := List.map_eq_append_iff.mp h.atoms_eq
    obtain ⟨⟨a', row⟩, rfl, rfl⟩ := List.map_eq_singleton_iff.mp hlast
    have hstored := List.forall_mem_append.mp h.stored
    have hlength := List.forall_mem_append.mp h.length_eq
    have hfits := places_concat choice a' row ▸ h.fits
    obtain ⟨b, hb, hdrawn⟩ := ih ⟨hatoms, hstored.1, hlength.1, hfits.mono (List.subset_append_left _ _)⟩
    have hlen := hlength.2 _ (List.mem_singleton_self _)
    obtain ⟨b', hb', hdrawn'⟩ := exists_unify_of_fits hlen hdrawn hfits
    refine ⟨b', ?_, places_concat choice a' row ▸ hdrawn'⟩
    rw [List.foldl_concat]
    refine mem_join.mpr ⟨b, hb, row, hstored.2 _ (List.mem_singleton_self _), hlen, ?_⟩
    rw [Atom.substitute, unify_map_substitute (.refl _)]
    exact hb'

/-- A choice of rows for some atoms has one for the atoms among them, in whatever order. -/
theorem Joins.exists_of_subset (h : fb.Joins atoms choice) (hsub : others ⊆ atoms) :
    ∃ choice', fb.Joins others choice' ∧ places choice' ⊆ places choice := by
  have hrow : ∀ a ∈ others, ∃ p, p ∈ choice ∧ p.1 = a := by
    intro a ha
    have hmem := hsub ha
    rw [← h.atoms_eq] at hmem
    exact List.mem_map.mp hmem
  obtain ⟨choice', hchoice'⟩ := exists_forall₂_of_forall_mem hrow
  have hmem : ∀ p ∈ choice', p ∈ choice := forall_mem_of_forall₂ hchoice' fun _ _ _ hp => hp.1
  have hplaces : places choice' ⊆ places choice := by
    intro place hplace
    obtain ⟨p, hp, hzip⟩ := List.mem_flatMap.mp hplace
    exact List.mem_flatMap.mpr ⟨p, hmem p hp, hzip⟩
  refine ⟨choice', ⟨?_, fun p hp => h.stored p (hmem p hp), fun p hp => h.length_eq p (hmem p hp),
    h.fits.mono hplaces⟩, hplaces⟩
  rw [map_eq_map_of_forall₂ hchoice' fun _ _ _ hp => hp.2, List.map_id']

/-- A choice of rows has a place for each variable of the atoms. -/
theorem Joins.exists_place (h : fb.Joins atoms choice) {a : Atom K} (ha : a ∈ atoms) {s : Symbol}
    (hs : .var s ∈ a.arguments) : ∃ c, (.var s, c) ∈ places choice := by
  rw [← h.atoms_eq] at ha
  obtain ⟨p, hp, rfl⟩ := List.mem_map.mp ha
  obtain ⟨i, hi, hget⟩ := List.mem_iff_getElem.mp hs
  have hi' : i < p.2.length := (h.length_eq p hp).symm ▸ hi
  refine ⟨p.2[i], List.mem_flatMap.mpr ⟨p, hp, List.mem_iff_getElem.mpr ⟨i, ?_, ?_⟩⟩⟩
  · rw [List.length_zip]
    exact lt_min hi hi'
  · rw [List.getElem_zip, hget]

/-! ### Answers -/

/-- Without pending literals there is nothing to apply. -/
theorem applyFilters_nil (bindings : List (Binding K)) (bound : List Symbol) :
    fb.applyFilters ⟨bindings, [], bound⟩ = ⟨bindings, [], bound⟩ := by
  rw [applyFilters]
  rfl

/-- Once nothing is pending, atoms are joined in order. -/
theorem foldl_step_idle (fb : FactBase K) (atoms : List (Atom K)) (bindings : List (Binding K))
    (bound : List Symbol) :
    ∃ bound', atoms.foldl fb.step ⟨bindings, [], bound⟩
      = ⟨atoms.foldl fb.join bindings, [], bound'⟩ := by
  induction atoms generalizing bindings bound with
  | nil => exact ⟨bound, rfl⟩
  | cons a atoms ih =>
    rw [List.foldl_cons, step, applyFilters_nil]
    exact ih _ _

/-- A conjunction of atoms is solved by joining them in order. -/
theorem solve_positive (fb : FactBase K) (atoms : List (Atom K)) :
    fb.solve (atoms.map .positive) = .ok (atoms.foldl fb.join [.empty]) := by
  have hfilters : (atoms.map Literal.positive).filter (·.positive?.isNone) = [] := by
    rw [List.filter_eq_nil_iff, List.forall_mem_map]
    exact fun a _ => Bool.false_ne_true
  have hatoms : (atoms.map Literal.positive).filterMap Literal.positive? = atoms := by
    rw [List.filterMap_map]
    exact List.filterMap_some
  obtain ⟨bound, hrun⟩ := foldl_step_idle fb atoms [.empty] []
  rw [solve, hfilters, hatoms, applyFilters_nil, hrun]

omit [Scalar K] in
/-- A binding yields one row. -/
theorem Yields.unique {selectors : List Symbol} {cells : Binding K → Except KbError (Tuple K)}
    {b : Binding K} {r r' : Tuple K} (h : Yields selectors cells b r) (h' : Yields selectors cells b r') :
    r = r' := by
  obtain ⟨t, cs, ht, hcs, rfl⟩ := h
  obtain ⟨t', cs', ht', hcs', rfl⟩ := h'
  have hread : Valuation.Reads b.get? selectors t := ht
  rw [hread.unique ht', Except.ok.inj (hcs.symm.trans hcs')]

/-- **What is collected over one conjunction**: the distinct rows that its bindings yield. -/
theorem collect_of_solve {selectors : List Symbol} {f : Formula K} {conjunction : Conjunction K}
    {bs : List (Binding K)} {cells : Binding K → Except KbError (Tuple K)} {rows : List (Tuple K)}
    (hdnf : f.toDnf = [conjunction]) (hselectors : ∀ s ∈ selectors, s ∈ f.vars)
    (hsolve : fb.solve conjunction = .ok bs)
    (hrows : List.Forall₂ (Yields selectors cells) bs rows) :
    fb.collect selectors f cells = .ok (distinct rows) := by
  have hfind : selectors.find? (· ∉ f.vars) = none := by
    rw [List.find?_eq_none]
    exact fun s hs => by simpa using hselectors s hs
  have hconjunctions : f.toDnf.mapM (fun conjunction => do
      (← fb.solve conjunction).mapM fun b => do return (← select selectors b) ++ (← cells b))
        = .ok [rows] := by
    rw [hdnf]
    refine mapM_eq_ok_iff.mpr (.cons (bind_eq_ok_iff.mpr ⟨bs, hsolve, ?_⟩) .nil)
    refine mapM_eq_ok_iff.mpr (hrows.imp ?_)
    rintro b r ⟨t, cs, ht, hcs, rfl⟩
    rw [select_eq_ok_iff.mpr ht, hcs]
    rfl
  rw [collect, hfind]
  refine bind_eq_ok_iff.mpr ⟨[rows], hconjunctions, congrArg Except.ok ?_⟩
  rw [OrderedIndex.items_ofList, List.flatten_singleton]

variable {selectors : List Symbol} {f : Formula K}

/-- **The answers of one conjunction** are read from the bindings that solve it. -/
theorem exists_answers_of_solve {conjunction : Conjunction K} {bs : List (Binding K)}
    (hdnf : f.toDnf = [conjunction]) (hsel : ∀ s ∈ selectors, s ∈ f.vars)
    (hsolve : fb.solve conjunction = .ok bs)
    (hbound : ∀ b ∈ bs, ∀ s ∈ selectors, (b.get? s).isSome) :
    ∃ rows, fb.answers selectors f = .ok rows
      ∧ ∀ t, t ∈ rows ↔ ∃ b ∈ bs, Valuation.Reads b.get? selectors t := by
  obtain ⟨tuples, htuples⟩ : ∃ tuples, List.Forall₂ (fun b t => Valuation.Reads b.get? selectors t)
      bs tuples :=
    exists_forall₂_of_forall_mem fun b hb => exists_forall₂_of_forall_mem fun s hs =>
      Option.isSome_iff_exists.mp (hbound b hb s hs)
  have hrows : fb.answers selectors f = .ok (distinct tuples) :=
    collect_of_solve hdnf hsel hsolve (htuples.imp fun b t ht => yields_plain.mpr ht)
  refine ⟨_, hrows, fun t => ?_⟩
  rw [mem_distinct]
  constructor
  · exact exists_of_forall₂_right htuples
  · rintro ⟨b, hb, ht⟩
    obtain ⟨t', ht', hread⟩ := exists_of_forall₂_left htuples hb
    exact ht.unique hread ▸ ht'

/-- **The answers of a conjunction of atoms** are read from the choices of rows that join its atoms. -/
theorem exists_answers_of_isConjunctive (hcs : Constant.Classes fb.constants)
    (hf : f.isConjunctive = true) (hsel : ∀ s ∈ selectors, s ∈ f.vars) :
    ∃ atoms rows, (∀ a, a ∈ atoms ↔ a ∈ f.atoms) ∧ fb.answers selectors f = .ok rows
      ∧ (∀ t ∈ rows, ∃ choice b, fb.Joins atoms choice ∧ Drawn b (places choice)
          ∧ Valuation.Reads b.get? selectors t)
      ∧ ∀ choice, fb.Joins atoms choice → ∃ t ∈ rows, ∃ b, Drawn b (places choice)
          ∧ Valuation.Reads b.get? selectors t := by
  obtain ⟨atoms, hdnf, hatoms⟩ := Formula.exists_toDnf_of_isConjunctive hf
  -- a selector stands in an atom, so it has a place in every choice
  have hplace : ∀ choice, fb.Joins atoms choice → ∀ b, Drawn b (places choice) →
      ∀ s ∈ selectors, (b.get? s).isSome := by
    intro choice hchoice b hb s hs
    obtain ⟨a, ha, harg⟩ := (Formula.mem_vars_of_isConjunctive hf).mp (hsel s hs)
    obtain ⟨c, hc⟩ := hchoice.exists_place ((hatoms a).mpr ha) harg
    exact hb.bound s c hc
  have hbound : ∀ b ∈ atoms.foldl fb.join [.empty], ∀ s ∈ selectors, (b.get? s).isSome := by
    intro b hb
    obtain ⟨choice, hchoice, hdrawn⟩ := exists_joins_of_mem hcs hb
    exact hplace choice hchoice b hdrawn
  obtain ⟨rows, hrows, hmem⟩ := exists_answers_of_solve hdnf hsel (solve_positive fb atoms) hbound
  refine ⟨atoms, rows, hatoms, hrows, fun t ht => ?_, fun choice hchoice => ?_⟩
  · obtain ⟨b, hb, hread⟩ := (hmem t).mp ht
    obtain ⟨choice, hchoice, hdrawn⟩ := exists_joins_of_mem hcs hb
    exact ⟨choice, b, hchoice, hdrawn, hread⟩
  · obtain ⟨b, hb, hdrawn⟩ := hchoice.exists_mem
    obtain ⟨t, hread⟩ := exists_forall₂_of_forall_mem fun s hs =>
      Option.isSome_iff_exists.mp (hplace choice hchoice b hdrawn s hs)
    exact ⟨t, (hmem t).mpr ⟨b, hb, hread⟩, b, hdrawn, hread⟩

/-- **Conjunctions of the same atoms have matching answers**: every answer of one has the values of an
answer of the other. -/
theorem exists_answers_match (hcs : Constant.Classes fb.constants) {g : Formula K}
    (hf : f.isConjunctive = true) (hg : g.isConjunctive = true)
    (hatoms : ∀ a, a ∈ f.atoms ↔ a ∈ g.atoms) (hsel : ∀ s ∈ selectors, s ∈ f.vars) :
    ∃ rows others, fb.answers selectors f = .ok rows ∧ fb.answers selectors g = .ok others
      ∧ ∀ t ∈ rows, ∃ u ∈ others, List.Forall₂ (fun c d => c.sameValue d = true) t u := by
  have hsel' : ∀ s ∈ selectors, s ∈ g.vars := by
    intro s hs
    have hvar := hsel s hs
    rw [Formula.mem_vars_of_isConjunctive hf] at hvar
    rw [Formula.mem_vars_of_isConjunctive hg]
    simpa only [hatoms] using hvar
  obtain ⟨as, rows, has, hrows, hfound, -⟩ := exists_answers_of_isConjunctive hcs hf hsel
  obtain ⟨bs, others, hbs, hothers, -, hall⟩ := exists_answers_of_isConjunctive hcs hg hsel'
  refine ⟨rows, others, hrows, hothers, fun t ht => ?_⟩
  obtain ⟨choice, b, hchoice, hdrawn, hread⟩ := hfound t ht
  have hsub : bs ⊆ as := fun a ha => (has a).mpr ((hatoms a).mpr ((hbs a).mp ha))
  obtain ⟨choice', hchoice', hplaces⟩ := hchoice.exists_of_subset hsub
  obtain ⟨u, hu, b', hdrawn', hread'⟩ := hall choice' hchoice'
  -- both bindings take the cells of a variable from places of one choice
  refine ⟨u, hu, forall₂_comp hread.flip hread' fun c _ s d hc hd => ?_⟩
  exact hchoice.fits.var s c d (hdrawn.cell s c hc) (hplaces (hdrawn'.cell s d hd))

end FactBase

end RelationalLP
