import Mathlib
import RelationalLP.Grounding.Coefficient
import RelationalLP.Proofs.Expr.ValuePreservation
import RelationalLP.Proofs.Facts.ConjoinedQueries

/-! # Choices of stored cells

The facts may store no cell for a numeric atom, one, or several. A choice takes one stored cell for each
factor. The query of a split summand is true under a valuation exactly when its base is and the value
symbols read a choice, and then the coefficient is the product of that choice. -/

namespace RelationalLP

variable {K : Type}

/-- An atom with one more argument is ground when the atom is and the argument has a constant. -/
theorem Atom.groundAt_withExtra_iff {v : Valuation K} {a g : Atom K} {p : PredicateTemplate}
    {x : Symbol} {c : Constant K} (hx : v x = some c) :
    (a.withExtra p (.var x)).groundAt v = some g
      ↔ ∃ args, List.Forall₂ (fun t d => t.valueAt v = some d) a.arguments args
        ∧ g = ⟨p, (args ++ [c]).map .const⟩ := by
  have hlast : [Term.var x].mapM (Term.valueAt v) = some [c] :=
    mapM_eq_some_iff.mpr (.cons hx .nil)
  rw [groundAt, withExtra, List.mapM_append, hlast]
  simp only [← mapM_eq_some_iff]
  cases a.arguments.mapM (Term.valueAt v) with
  | none => simp
  | some args => simp [eq_comm]

/-! ### Stored cells -/

/-- A cell that a factor has under a valuation: the constant of a symbol, or a cell that the facts store
behind the arguments of an atom. -/
def Factor.HasCell (fb : FactBase K) (v : Valuation K) : Factor K → Constant K → Prop
  | symbol s, c => v s = some c
  | atom a, c => ∃ args, List.Forall₂ (fun t d => t.valueAt v = some d) a.arguments args
      ∧ args ++ [c] ∈ fb.rows a.name

/-- Only the variables of a factor matter. -/
theorem Factor.HasCell.congr {fb : FactBase K} {v u : Valuation K} {f : Factor K} {c : Constant K}
    (h : f.HasCell fb v c) (hvu : ∀ x ∈ f.vars, u x = v x) : f.HasCell fb u c := by
  cases f with
  | symbol s => exact (hvu s (List.mem_singleton_self s)).trans h
  | atom a =>
    obtain ⟨args, hargs, hrow⟩ := h
    have hboth := (List.forall₂_and_left _ _).mpr ⟨fun t ht => ht, hargs⟩
    refine ⟨args, hboth.imp fun t d htd => ?_, hrow⟩
    rw [← htd.2]
    exact Term.valueAt_congr fun x hx => hvu x (Atom.mem_vars.mpr ⟨t, htd.1, hx⟩)

/-- A choice of one cell for each plain factor of a summand. -/
def Summand.Choice (s : Summand K) (fb : FactBase K) (v : Valuation K) (cs : Tuple K) : Prop :=
  List.Forall₂ (Factor.HasCell fb v) s.plainFactors cs

/-- The constants in the plain factors of a summand. -/
def Summand.plainConstants (s : Summand K) : List (Constant K) :=
  s.plainFactors.flatMap fun f => f.terms.filterMap Term.constant?

variable [Scalar K]

/-- The product of a number and the numbers of cells, from the left; none if a cell is a text. -/
def Tuple.product? (total : K) : Tuple K → Option K
  | [] => some total
  | c :: cs => c.number?.bind fun x => product? (total * x) cs

theorem Tuple.product?_eq_some_iff {total y : K} {cs : Tuple K} : product? total cs = some y
    ↔ ∃ xs, List.Forall₂ (fun c x => c.number? = some x) cs xs ∧ xs.foldl (· * ·) total = y := by
  induction cs generalizing total with
  | nil => simp [product?]
  | cons c cs ih =>
    rw [product?, Option.bind_eq_some_iff]
    simp only [ih, List.forall₂_cons_left_iff]
    constructor
    · rintro ⟨x, hx, xs, hxs, hy⟩
      exact ⟨x :: xs, ⟨x, xs, hx, hxs, rfl⟩, hy⟩
    · rintro ⟨_, ⟨x, xs, hx, hxs, rfl⟩, hy⟩
      exact ⟨x, hx, xs, hxs, hy⟩

/-- The value of a product of symbols is the product of the cells that they read. -/
theorem Expr.evaluateProduct_symbols_iff {i : Interpretation K Id} {b : Binding K}
    {symbols : List Symbol} {total y : K} :
    evaluateProduct i b total (symbols.map symbol) = .ok y
      ↔ ∃ cs, Valuation.Reads b.get? symbols cs ∧ Tuple.product? total cs = some y := by
  induction symbols generalizing total with
  | nil =>
    rw [List.map_nil, evaluateProduct]
    constructor
    · exact fun h => ⟨[], .nil, congrArg some (Except.ok.inj h)⟩
    · rintro ⟨cs, hcs, hy⟩
      rw [List.forall₂_nil_left_iff.mp hcs] at hy
      exact congrArg Except.ok (Option.some.inj hy)
  | cons s symbols ih =>
    -- the value of the first symbol multiplies the product so far
    have hstep : evaluateProduct i b total ((s :: symbols).map symbol) = .ok y
        ↔ ∃ x, (b.get? s).bind Constant.number? = some x
          ∧ evaluateProduct i b (total * x) (symbols.map symbol) = .ok y := by
      rw [List.map_cons, evaluateProduct, exceptT_bind_eq_ok_iff]
      simp only [evaluate, liftExcept_eq_ok_iff, symbolValue_eq_ok_iff]
    rw [hstep]
    simp only [ih, List.forall₂_cons_left_iff, Option.bind_eq_some_iff]
    constructor
    · rintro ⟨x, ⟨c, hc, hx⟩, cs, hcs, hy⟩
      exact ⟨c :: cs, ⟨c, cs, hc, hcs, rfl⟩, Option.bind_eq_some_iff.mpr ⟨x, hx, hy⟩⟩
    · rintro ⟨_, ⟨c, cs, hc, hcs, rfl⟩, hy⟩
      obtain ⟨x, hx, hy⟩ := Option.bind_eq_some_iff.mp hy
      exact ⟨x, ⟨c, hc, hx⟩, cs, hcs, hy⟩

namespace SplitSummand

variable {fb : FactBase K} {D : Domain K} {v u : Valuation K} {fs : List (Factor K)} {cs : Tuple K}
  {next : ℕ}

/-! ### Value symbols -/

theorem valueSymbol_inj {m n : ℕ} (h : valueSymbol m = valueSymbol n) : m = n := by
  rw [valueSymbol, valueSymbol, Symbol.mk.injEq] at h
  exact Nat.repr_inj.mp ((String.append_right_inj _).mp h)

omit [Scalar K] in
/-- The symbols that stand for some factors: an atom has its value symbol. -/
def factorSymbols (next : ℕ) : List (Factor K) → List Symbol
  | [] => []
  | .symbol s :: fs => s :: factorSymbols next fs
  | .atom _ :: fs => valueSymbol next :: factorSymbols (next + 1) fs

omit [Scalar K] in
theorem splitFactors_fst (fs : List (Factor K)) (next : ℕ) :
    (splitFactors next fs).1 = (factorSymbols next fs).map Expr.symbol := by
  induction fs generalizing next with
  | nil => rfl
  | cons f fs ih =>
    cases f with
    | symbol s => exact congrArg (Expr.symbol s :: ·) (ih next)
    | atom a => exact congrArg (Expr.symbol (valueSymbol next) :: ·) (ih (next + 1))

omit [Scalar K] in
/-- A symbol that stands for a factor is one of its variables or a value symbol. -/
theorem mem_factorSymbols {x : Symbol} (h : x ∈ factorSymbols next fs) :
    (∃ f ∈ fs, x ∈ f.vars) ∨ ∃ n, next ≤ n ∧ x = valueSymbol n := by
  induction fs generalizing next with
  | nil => exact absurd h List.not_mem_nil
  | cons f fs ih =>
    cases f with
    | symbol s =>
      rcases List.mem_cons.mp h with rfl | h
      · exact .inl ⟨.symbol x, List.mem_cons_self, List.mem_singleton_self x⟩
      · exact (ih h).imp_left fun ⟨f, hf, hx⟩ => ⟨f, List.mem_cons_of_mem _ hf, hx⟩
    | atom a =>
      rcases List.mem_cons.mp h with rfl | h
      · exact .inr ⟨next, le_rfl, rfl⟩
      · refine (ih h).imp (fun ⟨f, hf, hx⟩ => ⟨f, List.mem_cons_of_mem _ hf, hx⟩) ?_
        rintro ⟨n, hn, hx⟩
        exact ⟨n, by omega, hx⟩

omit [Scalar K] in
/-- The formulas of the value symbols are atoms. -/
theorem exists_atom_of_mem {g : Formula K} (h : g ∈ (splitFactors next fs).2.1) :
    ∃ a x, .atom a ∈ fs ∧ g = .atom (a.withExtra a.template.valueRelation (.var x)) := by
  induction fs generalizing next with
  | nil => exact absurd h List.not_mem_nil
  | cons f fs ih =>
    cases f with
    | symbol s =>
      obtain ⟨a, x, ha, hg⟩ := ih h
      exact ⟨a, x, List.mem_cons_of_mem _ ha, hg⟩
    | atom a =>
      rcases List.mem_cons.mp h with rfl | h
      · exact ⟨a, valueSymbol next, List.mem_cons_self, rfl⟩
      · obtain ⟨c, x, hc, hg⟩ := ih h
        exact ⟨c, x, List.mem_cons_of_mem _ hc, hg⟩

/-- The atom of a value symbol is true when the symbol has a stored cell. -/
theorem kleene_valueAtom_iff (hD : D.Covers fb) (hv : D.Inside v) {a : Atom K}
    (ha : D.Knows a.arguments) {x : Symbol} {c : Constant K} (hx : v x = some c) :
    (Formula.atom (a.withExtra a.template.valueRelation (.var x))).kleene v fb.holds = some true
      ↔ (Factor.atom a).HasCell fb v c := by
  -- a ground value atom is a tuple of the domain
  have hrow : ∀ {args : Tuple K}, List.Forall₂ (fun t d => t.valueAt v = some d) a.arguments args →
      (fb.holds ⟨a.template.valueRelation, (args ++ [c]).map .const⟩ = true
        ↔ args ++ [c] ∈ fb.rows a.name) := by
    intro args h
    have hargs := forall_mem_of_forall₂ h fun t ht d hd => hv.valueAt ha ht hd
    refine hD.holds_iff ?_
    rw [List.forall_mem_append, List.forall_mem_singleton]
    exact ⟨hargs, hv x c hx⟩
  rw [Formula.kleene, Option.map_eq_some_iff]
  constructor
  · rintro ⟨g, hg, hholds⟩
    obtain ⟨args, hargs, rfl⟩ := (Atom.groundAt_withExtra_iff hx).mp hg
    exact ⟨args, hargs, (hrow hargs).mp hholds⟩
  · rintro ⟨args, hargs, hmem⟩
    exact ⟨_, (Atom.groundAt_withExtra_iff hx).mpr ⟨args, hargs, rfl⟩, (hrow hargs).mpr hmem⟩

/-- **Where the value symbols read a choice**: the value atoms are all true exactly when each factor has
the cell that is read. -/
theorem forall_valueAtoms_iff (hD : D.Covers fb) (hv : D.Inside v)
    (hfs : ∀ f ∈ fs, D.Knows f.terms) (h : v.Reads (factorSymbols next fs) cs) :
    (∀ g ∈ (splitFactors next fs).2.1, g.kleene v fb.holds = some true)
      ↔ List.Forall₂ (Factor.HasCell fb v) fs cs := by
  induction fs generalizing next cs with
  | nil =>
    rw [List.forall₂_nil_left_iff.mp h]
    exact iff_of_true (fun g hg => absurd hg List.not_mem_nil) .nil
  | cons f fs ih =>
    obtain ⟨hhead, htail⟩ := List.forall_mem_cons.mp hfs
    cases f with
    | symbol s =>
      obtain ⟨c, cs, hc, hcs, rfl⟩ := List.forall₂_cons_left_iff.mp h
      rw [List.forall₂_cons]
      exact (ih htail hcs).trans (and_iff_right hc).symm
    | atom a =>
      obtain ⟨c, cs, hc, hcs, rfl⟩ := List.forall₂_cons_left_iff.mp h
      rw [List.forall₂_cons, ← ih htail hcs, ← kleene_valueAtom_iff hD hv hhead hc]
      exact List.forall_mem_cons

/-- **Every choice is read**: some valuation differs at value symbols only and reads the choice there. -/
theorem exists_reads_factorSymbols (hD : D.Covers fb) (hu : D.Inside u)
    (hfresh : ∀ n, next ≤ n → ∀ f ∈ fs, valueSymbol n ∉ f.vars)
    (h : List.Forall₂ (Factor.HasCell fb u) fs cs) :
    ∃ v : Valuation K, D.Inside v ∧ v.Reads (factorSymbols next fs) cs
      ∧ ∀ x, (∀ n, next ≤ n → x ≠ valueSymbol n) → v x = u x := by
  induction h generalizing next with
  | nil => exact ⟨u, hu, .nil, fun x _ => rfl⟩
  | @cons f c fs cs hc _ ih =>
    cases f with
    | symbol s =>
      obtain ⟨v, hv, hread, hrest⟩ := ih fun n hn f hf => hfresh n hn f (List.mem_cons_of_mem _ hf)
      refine ⟨v, hv, .cons ?_ hread, hrest⟩
      rw [hrest s fun n hn heq => hfresh n hn _ List.mem_cons_self (List.mem_singleton.mpr heq.symm)]
      exact hc
    | atom a =>
      have hlater : ∀ n, next + 1 ≤ n → ∀ f ∈ fs, valueSymbol n ∉ f.vars := fun n hn f hf =>
        hfresh n (by omega) f (List.mem_cons_of_mem _ hf)
      obtain ⟨v, hv, hread, hrest⟩ := ih hlater
      obtain ⟨args, -, hrow⟩ := hc
      -- the value symbol of the atom stands for no other factor
      have hnew : ∀ x ∈ factorSymbols (next + 1) fs, x ≠ valueSymbol next := by
        rintro x hx rfl
        rcases mem_factorSymbols hx with ⟨f, hf, hx⟩ | ⟨n, hn, hx⟩
        · exact hfresh next le_rfl f (List.mem_cons_of_mem _ hf) hx
        · exact absurd (valueSymbol_inj hx) (by omega)
      refine ⟨Function.update v (valueSymbol next) (some c), fun x d hx => ?_,
        .cons (Function.update_self ..) (hread.congr fun x hx => Function.update_of_ne (hnew x hx) ..),
        fun x hx => ?_⟩
      · rw [Function.update_apply] at hx
        split at hx
        · rw [← Option.some.inj hx]
          exact hD.cells _ _ hrow c (List.mem_append_right _ (List.mem_singleton_self c))
        · exact hv x d hx
      · rw [Function.update_of_ne (hx next le_rfl)]
        exact hrest x fun n hn => hx n (by omega)

/-! ### Split summands -/

variable {s : Summand K} {outer : Query K}

theorem symbols_conjoin_ofSummand (next : ℕ) (outer : Query K) (s : Summand K) :
    (outer.conjoin (ofSummand next s).1.query).symbols
      = (outer.conjoin (ofSummand next s).1.base).symbols := by
  have hsymbols : (ofSummand next s).1.query.symbols = (ofSummand next s).1.base.symbols := by
    simp only [ofSummand]
    split
    · rfl
    · rw [Query.symbols_conjoin fun x hx => absurd hx List.not_mem_nil]
      exact List.append_nil _
  exact congrArg (fun symbols => distinct (outer.symbols ++ symbols)) hsymbols

/-- The query of a split summand mentions the constants of its base and of the plain factors. -/
theorem const_mem_terms {c : Constant K}
    (h : .const c ∈ (ofSummand next s).1.query.formula.terms) :
    .const c ∈ (ofSummand next s).1.base.formula.terms ∨ ∃ f ∈ s.plainFactors, .const c ∈ f.terms := by
  simp only [ofSummand] at h ⊢
  split at h
  · exact .inl h
  · rcases Query.mem_terms_of_conjoin h with h | h
    · exact .inl h
    · obtain ⟨g, hg, h⟩ := Formula.mem_termsList.mp h
      obtain ⟨a, x, ha, rfl⟩ := exists_atom_of_mem hg
      rcases List.mem_append.mp h with h | h
      · exact .inr ⟨.atom a, ha, h⟩
      · cases List.mem_singleton.mp h

/-- **The query of a split summand** is true where its base and all value atoms are. -/
theorem kleene_conjoin_ofSummand {truthOf : Atom K → Bool} :
    (outer.conjoin (ofSummand next s).1.query).formula.simplify.kleene v truthOf = some true
      ↔ (outer.conjoin (ofSummand next s).1.base).formula.simplify.kleene v truthOf = some true
        ∧ ∀ g ∈ (splitFactors next s.plainFactors).2.1, g.kleene v truthOf = some true := by
  have hsimple : ∀ g ∈ (splitFactors next s.plainFactors).2.1, g.simplify = g := by
    intro g hg
    obtain ⟨a, x, -, rfl⟩ := exists_atom_of_mem hg
    rfl
  rw [Query.kleene_simplify_conjoin, Query.kleene_simplify_conjoin, and_assoc]
  refine and_congr_right fun _ => ?_
  simp only [ofSummand]
  split
  · rename_i hempty
    rw [List.isEmpty_iff.mp hempty]
    simp
  · rw [Query.kleene_simplify_conjoin, Query.ofSymbols, Formula.kleene_simplify_conj]
    refine and_congr_right fun _ => forall₂_congr fun g hg => ?_
    rw [hsimple g hg]

/-- The coefficient of a split summand is the product of the cells that stand for its factors. -/
theorem evaluate_coefficient_iff {i : Interpretation K Id} {b : Binding K} {y : K}
    (hcount : 0 < (ofSummand next s).1.valueAtoms) :
    (ofSummand next s).1.coefficient.evaluate i b = .ok y
      ↔ ∃ cs, Valuation.Reads b.get? (factorSymbols next s.plainFactors) cs
        ∧ Tuple.product? (1 * s.coefficient) cs = some y := by
  have hfactors : ¬ (splitFactors next s.plainFactors).1.isEmpty = true := by
    rw [splitFactors_fst, List.isEmpty_iff, List.map_eq_nil_iff]
    intro hempty
    obtain ⟨g, hg⟩ := List.exists_mem_of_length_pos hcount
    obtain ⟨a, x, ha, -⟩ := exists_atom_of_mem hg
    cases hfs : s.plainFactors with
    | nil => exact absurd (hfs ▸ ha) List.not_mem_nil
    | cons f fs =>
      rw [hfs] at hempty
      cases f <;> cases hempty
  have hcoefficient : (ofSummand next s).1.coefficient
      = .mul (.constant s.coefficient :: (splitFactors next s.plainFactors).1) := by
    simp only [ofSummand, if_neg hfactors]
  rw [hcoefficient, splitFactors_fst, Expr.evaluate, Expr.evaluateProduct, ← Expr.evaluateProduct_symbols_iff]
  rfl

end SplitSummand

end RelationalLP
