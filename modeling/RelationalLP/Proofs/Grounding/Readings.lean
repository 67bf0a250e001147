import Mathlib
import RelationalLP.Facts.Answering
import RelationalLP.Proofs.Expr.Linearity
import RelationalLP.Proofs.Number.Infinite

/-! # Readings of facts

Two readings of an expression under a fact base. In one, numbers are read as themselves, decision
variables by an assignment and other atoms by their facts. The other one tells which facts are needed: a
number counts as zero or one, a fact without a value as infinite. A product that is finite there has the
same value whatever stands in the place of the facts that it does not need. -/

namespace RelationalLP

namespace FactBase

variable (fb : FactBase ℚ)

/-- The value of the facts of an atom; what is not known counts as zero. -/
def factValue (a : Atom ℚ) : ℚ :=
  match fb.askFact a with
  | .ok (some q) => q
  | _ => 0

/-- Whether the facts give an atom a value. -/
def resolves (a : Atom ℚ) : Bool :=
  match fb.askFact a with
  | .ok (some _) => true
  | _ => false

/-- The reading of numbers as themselves, with an assignment of the decision variables. -/
def values (x : Atom ℚ → ℚ) : Reading ℚ where
  coefficient := MonoidHom.id ℚ
  missing := 0
  value a := if a.isDecision then x a else fb.factValue a

/-- Zero for zero, and one for every other number. -/
def support : ℚ →* ℕ∞ where
  toFun q := if q = 0 then 0 else 1
  map_one' := by rw [if_neg one_ne_zero]
  map_mul' p q := by
    by_cases hp : p = 0
    · rw [if_pos hp, if_pos (by rw [hp, zero_mul]), zero_mul]
    · by_cases hq : q = 0
      · rw [if_pos hq, if_pos (by rw [hq, mul_zero]), mul_zero]
      · rw [if_neg hp, if_neg hq, if_neg (mul_ne_zero hp hq), one_mul]

/-- The reading that tells which facts are needed: one without a value is infinite, unless it is
multiplied by zero. -/
def demands : Reading ℕ∞ where
  coefficient := support
  missing := ⊤
  value a := if a.isDecision then 1 else if fb.resolves a then 1 else ⊤

variable {fb} {x : Atom ℚ → ℚ} {v : Valuation ℚ}

theorem support_eq_zero_iff {q : ℚ} : support q = 0 ↔ q = 0 := by
  show (if q = 0 then (0 : ℕ∞) else 1) = 0 ↔ q = 0
  split
  · rename_i h
    exact iff_of_true rfl h
  · rename_i h
    exact iff_of_false one_ne_zero h

theorem support_ne_top (q : ℚ) : support q ≠ ⊤ := by
  show (if q = 0 then (0 : ℕ∞) else 1) ≠ ⊤
  split
  · exact ENat.zero_ne_top
  · exact ENat.one_ne_top

theorem resolves_iff {a : Atom ℚ} : fb.resolves a = true ↔ ∃ q, fb.askFact a = .ok (some q) := by
  rw [resolves]
  split
  · rename_i q h
    exact iff_of_true rfl ⟨q, h⟩
  · rename_i h
    refine iff_of_false Bool.false_ne_true ?_
    rintro ⟨q, hq⟩
    exact h q hq

theorem factValue_eq {a : Atom ℚ} {q : ℚ} (h : fb.askFact a = .ok (some q)) :
    fb.factValue a = q := by
  rw [factValue, h]

/-! ### Factors -/

/-- A needed symbol is bound to a number. -/
theorem demands_symbol_ne_top {s : Symbol} : (Factor.symbol s).denote fb.demands v ≠ ⊤
    ↔ ∃ q, (v s).bind Constant.number? = some q := by
  rw [Factor.denote, Reading.symbolValue]
  cases (v s).bind Constant.number? with
  | none => exact iff_of_false (fun h => h rfl) (by simp)
  | some q => exact iff_of_true (support_ne_top q) ⟨q, rfl⟩

theorem values_symbol {s : Symbol} {q : ℚ} (h : (v s).bind Constant.number? = some q) :
    (Factor.symbol s).denote (fb.values x) v = q := by
  rw [Factor.denote, Reading.symbolValue, h]
  rfl

/-- A needed atom that is no decision variable is ground and has a value. -/
theorem demands_atom_ne_top {a : Atom ℚ} (ha : a.isDecision = false) :
    (Factor.atom a).denote fb.demands v ≠ ⊤
      ↔ ∃ g q, a.groundAt v = some g ∧ fb.askFact g = .ok (some q) := by
  rw [Factor.denote, Reading.atomValue]
  cases hg : a.groundAt v with
  | none => exact iff_of_false (fun h => h rfl) (by simp)
  | some g =>
    have hkind : g.isDecision = false := by
      rw [Atom.isDecision, Atom.template_of_groundAt hg]
      exact ha
    simp only [Option.map_some, Option.getD_some, demands, hkind]
    by_cases hr : fb.resolves g = true
    · obtain ⟨q, hq⟩ := resolves_iff.mp hr
      exact iff_of_true (by simp [hr]) ⟨g, q, rfl, hq⟩
    · refine iff_of_false (by simp [hr]) ?_
      rintro ⟨g', q, hg', hq⟩
      obtain rfl := Option.some.inj hg'
      exact hr (resolves_iff.mpr ⟨q, hq⟩)

theorem values_atom {a g : Atom ℚ} (ha : a.isDecision = false) (hg : a.groundAt v = some g) {q : ℚ}
    (hq : fb.askFact g = .ok (some q)) : (Factor.atom a).denote (fb.values x) v = q := by
  have hkind : g.isDecision = false := by
    rw [Atom.isDecision, Atom.template_of_groundAt hg]
    exact ha
  rw [Factor.denote, hg]
  simp [Reading.atomValue, values, hkind, factValue_eq hq]

/-- What is not needed at all is zero. -/
theorem values_eq_zero {f : Factor ℚ} (h : f.denote fb.demands v = 0) :
    f.denote (fb.values x) v = 0 := by
  cases f with
  -- a symbol is needed only as far as its number is not zero
  | symbol s =>
    rw [Factor.denote, Reading.symbolValue] at h
    cases hs : (v s).bind Constant.number? with
    | none =>
      rw [hs] at h
      exact absurd h ENat.top_ne_zero
    | some q =>
      rw [hs] at h
      rw [values_symbol hs]
      exact support_eq_zero_iff.mp h
  | atom a =>
    -- an atom is always needed
    rw [Factor.denote, Reading.atomValue] at h
    cases hg : a.groundAt v with
    | none =>
      rw [hg] at h
      exact absurd h ENat.top_ne_zero
    | some g =>
      rw [hg] at h
      simp only [Option.map_some, Option.getD_some, demands] at h
      split at h
      · exact absurd h one_ne_zero
      · split at h
        · exact absurd h one_ne_zero
        · exact absurd h ENat.top_ne_zero

/-! ### Products -/

/-- **A finite product is determined by what it needs**: numbers that are the values of the needed factors
have the same product, whatever the others are. -/
theorem prod_eq_of_finite {c : ℚ} {fs : List (Factor ℚ)} {ys : List ℚ}
    (hfin : support c * (fs.map (Factor.denote fb.demands v)).prod ≠ ⊤)
    (h : List.Forall₂ (fun f y => f.denote fb.demands v ≠ ⊤ → y = f.denote (fb.values x) v) fs ys) :
    c * ys.prod = c * (fs.map (Factor.denote (fb.values x) v)).prod := by
  by_cases hc : c = 0
  · rw [hc, zero_mul, zero_mul]
  · by_cases hzero : (0 : ℕ∞) ∈ fs.map (Factor.denote fb.demands v)
    · -- one factor is zero, and it is so in both products
      obtain ⟨f, hf, hdemand⟩ := List.mem_map.mp hzero
      have hvalue := values_eq_zero (x := x) hdemand
      obtain ⟨y, hy, hfy⟩ := exists_of_forall₂_left h hf
      have hy0 : y = 0 := (hfy (by rw [hdemand]; exact ENat.zero_ne_top)).trans hvalue
      rw [List.prod_eq_zero (hy0 ▸ hy), List.prod_eq_zero (List.mem_map.mpr ⟨f, hf, hvalue⟩)]
    · have hsupport : support c ≠ 0 := fun hs => hc (support_eq_zero_iff.mp hs)
      have hprod : (fs.map (Factor.denote fb.demands v)).prod ≠ ⊤ := fun htop =>
        hfin (by rw [htop, ENat.mul_top hsupport])
      have hall := List.forall_mem_map.mp (ne_top_of_prod_ne_top hprod hzero)
      have hys : ys = fs.map (Factor.denote (fb.values x) v) := by
        have hmap := map_eq_map_of_forall₂ h (f := id) fun f hf y hfy => hfy (hall f hf)
        rwa [List.map_id] at hmap
      rw [hys]

end FactBase

/-! ### Summands -/

namespace Summand

variable {R : Type} [CommSemiring R] (m : Reading R)

/-- The denotation of a product without its decision variable. -/
def plainDenote (s : Summand ℚ) (v : Valuation ℚ) : R :=
  m.coefficient s.coefficient * (s.plainFactors.map (Factor.denote m v)).prod

/-- The denotation of the decision variable of a product, one if there is none. -/
def decisionDenote (s : Summand ℚ) (v : Valuation ℚ) : R :=
  (s.decision?.map fun a => m.atomValue (a.groundAt v)).getD 1

variable {m}

/-- **A product splits** into its plain factors and its decision variable. -/
theorem bodyDenote_eq_mul {s : Summand ℚ} (h : s.Linear) (v : Valuation ℚ) :
    s.bodyDenote m v = s.plainDenote m v * s.decisionDenote m v := by
  rw [bodyDenote, plainDenote, decisionDenote, prod_factors_eq_mul _ h.decisions, mul_assoc]
  rfl

end Summand

namespace FactBase

variable {fb : FactBase ℚ} {s : Summand ℚ} {a g : Atom ℚ} {v : Valuation ℚ}

/-- A decision variable has the value that it is assigned. -/
theorem values_decisionDenote (h : s.decision? = some a) (hg : a.groundAt v = some g)
    (x : Atom ℚ → ℚ) : s.decisionDenote (fb.values x) v = x g := by
  have hkind : g.isDecision = true := by
    rw [Atom.isDecision, Atom.template_of_groundAt hg]
    exact Summand.isDecision_of_decision? h
  simp [Summand.decisionDenote, h, hg, Reading.atomValue, values, hkind]

/-- Where the decision variables are zero, so is the one of a product. -/
theorem values_zero_decisionDenote (h : s.decision? = some a) (v : Valuation ℚ) :
    s.decisionDenote (fb.values 0) v = 0 := by
  cases hg : a.groundAt v with
  | none => simp [Summand.decisionDenote, h, hg, Reading.atomValue, values]
  | some g =>
    rw [values_decisionDenote h hg]
    rfl

/-- A decision variable needs no fact. -/
theorem demands_decisionDenote (h : s.decision? = some a) (hg : a.groundAt v = some g) :
    s.decisionDenote fb.demands v = 1 := by
  have hkind : g.isDecision = true := by
    rw [Atom.isDecision, Atom.template_of_groundAt hg]
    exact Summand.isDecision_of_decision? h
  simp [Summand.decisionDenote, h, hg, Reading.atomValue, demands, hkind]

end FactBase

end RelationalLP
