import Mathlib
import RelationalLP.Proofs.Logic.Kleene
import RelationalLP.Proofs.Logic.Terms

/-! # Truth of normal forms

A formula is true exactly when every literal of some conjunction of its normal form is, and false
exactly when this holds of the normal form of its negation. This needs no law that three truth values
lack: the normal form only distributes and moves negations inwards. -/

namespace RelationalLP

variable {K : Type} [Scalar K]

/-! ### Truth of literals -/

/-- The truth value of a literal. -/
def Literal.kleene (v : Valuation K) (truthOf : Atom K → Bool) : Literal K → Option Bool
  | positive a => (a.groundAt v).map truthOf
  | negative a => (a.groundAt v).map (!truthOf ·)
  | compare c => c.kleene v

/-- Every literal of a conjunction is true. -/
def Conjunction.Holds (v : Valuation K) (truthOf : Atom K → Bool) (c : Conjunction K) : Prop :=
  ∀ l ∈ c, l.kleene v truthOf = some true

/-- Some conjunction of a normal form is true. -/
def Dnf.Holds (v : Valuation K) (truthOf : Atom K → Bool) (d : Dnf K) : Prop :=
  ∃ c ∈ d, Conjunction.Holds v truthOf c

variable {v u : Valuation K} {truthOf : Atom K → Bool}

/-- A true literal has a constant for each of its variables. -/
theorem Literal.isSome_of_kleene {l : Literal K} {x : Bool} (h : l.kleene v truthOf = some x)
    {s : Symbol} (hs : s ∈ l.vars) : (v s).isSome := by
  have hatom : ∀ {a : Atom K} {f : Atom K → Bool}, (a.groundAt v).map f = some x → s ∈ a.vars →
      (v s).isSome := by
    intro a f h hs
    obtain ⟨g, hg, -⟩ := Option.map_eq_some_iff.mp h
    exact (a.isSome_groundAt v).mp (by rw [hg]; rfl) s hs
  cases l with
  | positive a => exact hatom h hs
  | negative a => exact hatom h hs
  | compare c =>
    obtain ⟨a, b, ha, hb, -⟩ := Comparison.kleene_eq_some_iff.mp h
    exact Comparison.isSome_vars_iff.mpr ⟨a, b, ha, hb⟩ s hs

/-- A literal has the same truth value under valuations that agree on its variables. -/
theorem Literal.kleene_congr {l : Literal K} (h : ∀ s ∈ l.vars, v s = u s) :
    l.kleene v truthOf = l.kleene u truthOf := by
  cases l with
  | positive a => exact congrArg (Option.map truthOf) (Atom.groundAt_congr h)
  | negative a => exact congrArg (Option.map (!truthOf ·)) (Atom.groundAt_congr h)
  | compare c => exact Comparison.kleene_congr h

/-- A true literal stays true when more symbols are bound. -/
theorem Literal.kleene_mono (h : v.Extends u) {l : Literal K} {x : Bool}
    (hl : l.kleene u truthOf = some x) : l.kleene v truthOf = some x := by
  rw [← hl]
  refine kleene_congr fun s hs => ?_
  obtain ⟨c, hc⟩ := Option.isSome_iff_exists.mp (isSome_of_kleene hl hs)
  rw [hc, h s c hc]

/-- A decided comparison of two constants is a true one. -/
theorem Comparison.decide_eq_true_iff {op : CompareOp} {x y : Constant K} :
    Comparison.decide op x y = true ↔ op.kleene (x.compareValue y) = some true := by
  rw [Comparison.decide]
  cases x.compareValue y with
  | some o => simp [CompareOp.kleene]
  | none => cases op <;> simp [CompareOp.kleene]

/-- A comparison that is decided to be true is a true one. -/
theorem Comparison.evaluate_eq_true_iff {b : Binding K} {c : Comparison K} :
    c.evaluate b = some true ↔ c.kleene b.get? = some true := by
  simp only [evaluate_eq_some_iff, kleene_eq_some_iff, decide_eq_true_iff]

/-! ### Truth of products -/

namespace Dnf

/-- A product holds when both sides do. -/
theorem holds_product {left right : Dnf K} :
    Holds v truthOf (product left right) ↔ Holds v truthOf left ∧ Holds v truthOf right := by
  constructor
  · rintro ⟨c, hc, hall⟩
    obtain ⟨l, hl, r, hr, rfl⟩ := mem_product.mp hc
    rw [Conjunction.Holds, List.forall_mem_append] at hall
    exact ⟨⟨l, hl, hall.1⟩, ⟨r, hr, hall.2⟩⟩
  · rintro ⟨⟨l, hl, hleft⟩, ⟨r, hr, hright⟩⟩
    exact ⟨l ++ r, mem_product.mpr ⟨l, hl, r, hr, rfl⟩, List.forall_mem_append.mpr ⟨hleft, hright⟩⟩

theorem holds_foldl_product {parts : List (Dnf K)} {acc : Dnf K} :
    Holds v truthOf (parts.foldl product acc)
      ↔ Holds v truthOf acc ∧ ∀ d ∈ parts, Holds v truthOf d := by
  induction parts generalizing acc with
  | nil => simp
  | cons d parts ih =>
    rw [List.foldl_cons, ih, holds_product, List.forall_mem_cons, and_assoc]

/-- A product of a list of normal forms holds when each of them does. -/
theorem holds_productAll {parts : List (Dnf K)} :
    Holds v truthOf (productAll parts) ↔ ∀ d ∈ parts, Holds v truthOf d := by
  have hstart : Holds v truthOf ([[]] : Dnf K) := ⟨[], List.mem_singleton_self _, by
    intro l hl
    exact absurd hl List.not_mem_nil⟩
  rw [productAll, holds_foldl_product, and_iff_right hstart]

/-- A list of normal forms one after another holds when one of them does. -/
theorem holds_flatten {parts : List (Dnf K)} :
    Holds v truthOf parts.flatten ↔ ∃ d ∈ parts, Holds v truthOf d := by
  constructor
  · rintro ⟨c, hc, hall⟩
    obtain ⟨d, hd, hcd⟩ := List.mem_flatten.mp hc
    exact ⟨d, hd, c, hcd, hall⟩
  · rintro ⟨d, hd, c, hcd, hall⟩
    exact ⟨c, List.mem_flatten.mpr ⟨d, hd, hcd⟩, hall⟩

/-- A normal form of one literal holds when the literal is true. -/
theorem holds_literal {l : Literal K} :
    Holds v truthOf [[l]] ↔ l.kleene v truthOf = some true := by
  simp [Holds, Conjunction.Holds]

end Dnf

namespace Formula

theorem kleene_atom_literal (n : Bool) (a : Atom K) :
    (if n then Literal.negative a else .positive a).kleene v truthOf
      = ((atom a).kleene v truthOf).map (n ^^ ·) := by
  rw [kleene, Option.map_map]
  cases n <;> simp [Literal.kleene, Function.comp_def]

theorem kleene_compare_literal (n : Bool) (c : Comparison K) :
    (Literal.compare (if n then c.negate else c)).kleene v truthOf
      = ((compare c).kleene v truthOf).map (n ^^ ·) := by
  cases n with
  | false => cases h : c.kleene v <;> simp [Literal.kleene, kleene, h]
  | true =>
    have hneg : (compare c.negate).kleene v truthOf = ((compare c).kleene v truthOf).map (!·) :=
      kleene_opposite (compare c)
    simp only [Literal.kleene, if_true, Bool.true_xor]
    exact hneg

/-- The truth value of a literal after a possible negation. -/
theorem map_xor_eq_some_true {n : Bool} {x : Option Bool} :
    x.map (n ^^ ·) = some true ↔ x = some (!n) := by
  cases n <;> cases x <;> simp

mutual

/-- **Truth of the normal form**: a formula has the truth value that its normal form asks for exactly
when some conjunction holds. -/
theorem holds_dnf :
    (f : Formula K) → ∀ n, (f.dnf n).Holds v truthOf ↔ f.kleene v truthOf = some (!n)
  | truth, n => by cases n <;> simp [dnf, kleene, Dnf.Holds, Conjunction.Holds]
  | falsity, n => by cases n <;> simp [dnf, kleene, Dnf.Holds, Conjunction.Holds]
  | atom a, n => by rw [dnf, Dnf.holds_literal, kleene_atom_literal, map_xor_eq_some_true]
  | compare c, n => by rw [dnf, Dnf.holds_literal, kleene_compare_literal, map_xor_eq_some_true]
  | neg f, n => by
    rw [dnf, holds_dnf f, kleene]
    cases f.kleene v truthOf <;> simp
  | conj fs, true => by
    rw [dnf, if_pos rfl, Dnf.holds_flatten, kleene]
    exact (holds_dnfList_any fs).trans (Connective.combine_eq_decisive (o := .conj)).symm
  | conj fs, false => by
    rw [dnf, if_neg (by simp), Dnf.holds_productAll, kleene]
    exact (holds_dnfList_all fs).trans (Connective.combine_eq_not_decisive (o := .conj)).symm
  | disj fs, true => by
    rw [dnf, if_pos rfl, Dnf.holds_productAll, kleene]
    exact (holds_dnfList_all fs).trans (Connective.combine_eq_not_decisive (o := .disj)).symm
  | disj fs, false => by
    rw [dnf, if_neg (by simp), Dnf.holds_flatten, kleene]
    exact (holds_dnfList_any fs).trans (Connective.combine_eq_decisive (o := .disj)).symm

theorem holds_dnfList_any :
    (fs : List (Formula K)) → ∀ {n}, (∃ d ∈ dnfList n fs, d.Holds v truthOf)
      ↔ some (!n) ∈ kleeneList v truthOf fs
  | [], n => by simp [dnfList, kleeneList]
  | f :: fs, n => by
    rw [dnfList, kleeneList, List.mem_cons, ← holds_dnfList_any fs, eq_comm, ← holds_dnf f]
    simp

theorem holds_dnfList_all :
    (fs : List (Formula K)) → ∀ {n}, (∀ d ∈ dnfList n fs, d.Holds v truthOf)
      ↔ ∀ x ∈ kleeneList v truthOf fs, x = some (!n)
  | [], n => by simp [dnfList, kleeneList]
  | f :: fs, n => by
    rw [dnfList, kleeneList, List.forall_mem_cons, List.forall_mem_cons, holds_dnf f,
      holds_dnfList_all fs]

end

end Formula

end RelationalLP
