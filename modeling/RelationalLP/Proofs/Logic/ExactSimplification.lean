import Mathlib
import RelationalLP.Proofs.Logic.NormalForms

/-! # Exact simplification

Simplification decides the comparisons of two constants. An order of constants that do not compare is
open before it and false after it; where there is no such order, simplification changes no truth value
and decides none that was open. A simplified formula compares no two constants, so simplifying it again
changes nothing. -/

namespace RelationalLP

variable {K : Type}

/-! ### Comparisons of a formula -/

namespace Formula

theorem comparisonsList_eq_flatMap (fs : List (Formula K)) :
    comparisonsList fs = fs.flatMap comparisons := by
  induction fs with
  | nil => rfl
  | cons f fs ih => rw [comparisonsList, ih, List.flatMap_cons]

mutual

theorem comparisons_rename (r : Renaming) :
    (f : Formula K) → (f.rename r).comparisons = f.comparisons.map (Comparison.rename r)
  | truth => rfl
  | falsity => rfl
  | atom _ => rfl
  | compare _ => rfl
  | neg f => comparisons_rename r f
  | conj fs => comparisonsList_renameList r fs
  | disj fs => comparisonsList_renameList r fs

theorem comparisonsList_renameList (r : Renaming) : (fs : List (Formula K)) →
    comparisonsList (renameList r fs) = (comparisonsList fs).map (Comparison.rename r)
  | [] => rfl
  | f :: fs => by
    rw [renameList, comparisonsList, comparisonsList, List.map_append, comparisons_rename r f,
      comparisonsList_renameList r fs]

end

mutual

theorem comparisons_substitute (b : Binding K) :
    (f : Formula K) → (f.substitute b).comparisons = f.comparisons.map (Comparison.substitute b)
  | truth => rfl
  | falsity => rfl
  | atom _ => rfl
  | compare _ => rfl
  | neg f => comparisons_substitute b f
  | conj fs => comparisonsList_substituteList b fs
  | disj fs => comparisonsList_substituteList b fs

theorem comparisonsList_substituteList (b : Binding K) : (fs : List (Formula K)) →
    comparisonsList (substituteList b fs) = (comparisonsList fs).map (Comparison.substitute b)
  | [] => rfl
  | f :: fs => by
    rw [substituteList, comparisonsList, comparisonsList, List.map_append,
      comparisons_substitute b f, comparisonsList_substituteList b fs]

end

variable [Scalar K] {v w : Valuation K} {f : Formula K}

/-- Renamed orders compare under a valuation when the orders compare after the renaming. -/
theorem comparable_rename {r : Renaming} :
    (f.rename r).Comparable v ↔ f.Comparable (v.renamed r) := by
  rw [Comparable, Comparable, comparisons_rename, List.forall_mem_map]
  simp only [Comparison.Comparable, Comparison.rename, Term.valueAt_rename]

/-- Orders compare after a substitution when they compare under the valuation filled up. -/
theorem comparable_substitute {b : Binding K} :
    (f.substitute b).Comparable v ↔ f.Comparable (Valuation.filled b.get? v) := by
  rw [Comparable, Comparable, comparisons_substitute, List.forall_mem_map]
  simp only [Comparison.Comparable, Comparison.substitute, Term.valueAt_substitute]

/-- With fewer constants there are fewer orders to compare. -/
theorem Comparable.anti (h : f.Comparable v) (hext : v.Extends w) : f.Comparable w := by
  intro c hc horder x y hx hy
  exact h c hc horder x y (Term.valueAt_mono hext hx) (Term.valueAt_mono hext hy)

end Formula

variable [Scalar K] {v : Valuation K} {truthOf : Atom K → Bool}

/-! ### Nothing is decided anew -/

namespace Formula

mutual

/-- **Simplification is exact** where orders of two constants compare. -/
theorem kleene_simplify_eq : (f : Formula K) → f.Comparable .unbound →
    f.simplify.kleene v truthOf = f.kleene v truthOf
  | truth, _ => rfl
  | falsity, _ => rfl
  | atom _, _ => rfl
  | compare c, h => by
    rw [simplify]
    cases hc : c.evaluate .empty with
    | none => rfl
    | some y =>
      -- what is decided without a binding is decided under every valuation
      have hempty : v.Extends Binding.empty.get? := by
        intro s x hs
        rw [Binding.get?_empty] at hs
        cases hs
      have hcompare : c.Comparable Binding.empty.get? := h c List.mem_cons_self
      have hy : (Literal.compare c).kleene v truthOf = some y :=
        Literal.kleene_mono hempty (hcompare.kleene_eq hc)
      rw [kleene, show c.kleene v = some y from hy]
      cases y <;> rfl
  | neg f, h => by rw [simplify, kleene_opposite, kleene_simplify_eq f h, kleene]
  | conj fs, h => by
    rw [simplify, Connective.kleene_join, ← kleeneList_eq_map, kleeneList_simplifyList_eq fs h, kleene]
  | disj fs, h => by
    rw [simplify, Connective.kleene_join, ← kleeneList_eq_map, kleeneList_simplifyList_eq fs h, kleene]

theorem kleeneList_simplifyList_eq : (fs : List (Formula K)) →
    (∀ c ∈ comparisonsList fs, c.Comparable .unbound) →
      kleeneList v truthOf (simplifyList fs) = kleeneList v truthOf fs
  | [], _ => rfl
  | f :: fs, h => congrArg₂ List.cons
      (kleene_simplify_eq f fun c hc => h c (List.mem_append_left _ hc))
      (kleeneList_simplifyList_eq fs fun c hc => h c (List.mem_append_right _ hc))

end

end Formula

/-! ### Simplified formulas -/

namespace Formula

/-- No comparison of the formula has a constant on both sides. -/
def Undecided (f : Formula K) : Prop := ∀ c ∈ f.comparisons, c.evaluate .empty = none

theorem undecided_apply (o : Connective) (fs : List (Formula K)) :
    (o.apply fs).Undecided ↔ ∀ f ∈ fs, f.Undecided := by
  have hlist : (∀ c ∈ comparisonsList fs, c.evaluate .empty = none) ↔ ∀ f ∈ fs, f.Undecided := by
    rw [comparisonsList_eq_flatMap]
    simp only [List.mem_flatMap, Undecided]
    exact ⟨fun h f hf c hc => h c ⟨f, hf, hc⟩, fun h c ⟨f, hf, hc⟩ => h f hf c hc⟩
  cases o <;> exact hlist

theorem Undecided.join {o : Connective} {fs : List (Formula K)} (h : ∀ f ∈ fs, f.Undecided) :
    (o.join fs).Undecided := by
  refine Connective.join_of_forall ?_ ?_ (undecided_apply o) h
  · cases o <;> exact fun c hc => absurd hc List.not_mem_nil
  · cases o <;> exact fun c hc => absurd hc List.not_mem_nil

theorem Undecided.opposite {f : Formula K} (h : f.Undecided) : f.opposite.Undecided := by
  cases f with
  | compare c =>
    intro d hd
    rw [List.mem_singleton.mp hd]
    have hc := h c List.mem_cons_self
    rw [Comparison.evaluate] at hc ⊢
    revert hc
    simp only [Comparison.negate]
    cases c.left.substitute .empty <;> cases c.right.substitute .empty <;> simp
  | _ => exact h

mutual

/-- **A simplified formula compares no two constants.** -/
theorem undecided_simplify : (f : Formula K) → f.simplify.Undecided
  | truth => fun _ hc => absurd hc List.not_mem_nil
  | falsity => fun _ hc => absurd hc List.not_mem_nil
  | atom _ => fun _ hc => absurd hc List.not_mem_nil
  | compare c => by
    rw [simplify]
    split
    · exact fun _ hc => absurd hc List.not_mem_nil
    · exact fun _ hc => absurd hc List.not_mem_nil
    · rename_i hnone
      intro d hd
      rw [List.mem_singleton.mp hd]
      exact hnone
  | neg f => (undecided_simplify f).opposite
  | conj fs => Undecided.join (undecided_simplifyList fs)
  | disj fs => Undecided.join (undecided_simplifyList fs)

theorem undecided_simplifyList :
    (fs : List (Formula K)) → ∀ f ∈ simplifyList fs, f.Undecided
  | [] => fun _ hf => absurd hf List.not_mem_nil
  | f :: fs => by
    rw [simplifyList, List.forall_mem_cons]
    exact ⟨undecided_simplify f, undecided_simplifyList fs⟩

end

/-- A formula that compares no two constants has no order to compare without a binding. -/
theorem Undecided.comparable {f : Formula K} (h : f.Undecided) : f.Comparable .unbound := by
  intro c hc _ x y hx hy
  have hnone := h c hc
  rw [Comparison.evaluate_eq] at hnone
  have hx : c.left.valueAt Binding.empty.get? = some x := hx
  have hy : c.right.valueAt Binding.empty.get? = some y := hy
  rw [hx, hy] at hnone
  cases hnone

/-- **Simplifying again changes no truth value.** -/
theorem kleene_simplify_simplify (f : Formula K) :
    f.simplify.simplify.kleene v truthOf = f.simplify.kleene v truthOf :=
  kleene_simplify_eq f.simplify (undecided_simplify f).comparable

end Formula

end RelationalLP
