import Mathlib
import RelationalLP.Proofs.Logic.Terms

/-! # Atoms of formulas

The atoms of a formula, and the parts of a literal. What holds of all atoms of a formula holds of those of
the literals of its normal form. -/

namespace RelationalLP

variable {K : Type}

/-! ### Parts of literals -/

namespace Literal

/-- The negated atom of a literal. -/
def negated? : Literal K → Option (Atom K)
  | negative a => some a
  | _ => none

/-- The comparison of a literal. -/
def comparison? : Literal K → Option (Comparison K)
  | compare c => some c
  | _ => none

/-- The atom of a literal, negated or not. -/
def atom? : Literal K → Option (Atom K)
  | positive a => some a
  | negative a => some a
  | compare _ => none

@[simp] theorem positive?_positive (a : Atom K) : (positive a).positive? = some a := rfl
@[simp] theorem positive?_negative (a : Atom K) : (negative a).positive? = none := rfl
@[simp] theorem positive?_compare (c : Comparison K) : (compare c).positive? = none := rfl
@[simp] theorem negated?_positive (a : Atom K) : (positive a).negated? = none := rfl
@[simp] theorem negated?_negative (a : Atom K) : (negative a).negated? = some a := rfl
@[simp] theorem negated?_compare (c : Comparison K) : (compare c).negated? = none := rfl
@[simp] theorem comparison?_positive (a : Atom K) : (positive a).comparison? = none := rfl
@[simp] theorem comparison?_negative (a : Atom K) : (negative a).comparison? = none := rfl
@[simp] theorem comparison?_compare (c : Comparison K) : (compare c).comparison? = some c := rfl

@[simp] theorem positive?_eq_some_iff {l : Literal K} {a : Atom K} :
    l.positive? = some a ↔ l = .positive a := by
  cases l <;> simp

@[simp] theorem negated?_eq_some_iff {l : Literal K} {a : Atom K} :
    l.negated? = some a ↔ l = .negative a := by
  cases l <;> simp

@[simp] theorem comparison?_eq_some_iff {l : Literal K} {c : Comparison K} :
    l.comparison? = some c ↔ l = .compare c := by
  cases l <;> simp

theorem atom?_opposite (l : Literal K) : l.opposite.atom? = l.atom? := by
  cases l <;> rfl

end Literal

namespace Formula

mutual

/-- The atoms of a formula in order of their places. -/
def atoms : Formula K → List (Atom K)
  | truth => []
  | falsity => []
  | atom a => [a]
  | compare _ => []
  | neg f => f.atoms
  | conj fs => atomsList fs
  | disj fs => atomsList fs

/-- The atoms of a list of formulas. -/
def atomsList : List (Formula K) → List (Atom K)
  | [] => []
  | f :: fs => f.atoms ++ atomsList fs

end

mutual

/-- The atoms of a formula are those of its leaves. -/
theorem atoms_eq_filterMap_leaves : (f : Formula K) → f.atoms = f.leaves.filterMap Literal.atom?
  | truth => rfl
  | falsity => rfl
  | atom _ => rfl
  | compare _ => rfl
  | neg f => atoms_eq_filterMap_leaves f
  | conj fs => atomsList_eq_filterMap_leavesList fs
  | disj fs => atomsList_eq_filterMap_leavesList fs

theorem atomsList_eq_filterMap_leavesList :
    (fs : List (Formula K)) → atomsList fs = (leavesList fs).filterMap Literal.atom?
  | [] => rfl
  | f :: fs => by
    rw [atomsList, leavesList, List.filterMap_append, atoms_eq_filterMap_leaves f,
      atomsList_eq_filterMap_leavesList fs]

end

/-- What holds of the atoms of a formula holds of the literals of its disjunctive normal form. -/
theorem forall_atoms_toDnf [Scalar K] {P : Atom K → Prop} {f : Formula K} (h : ∀ a ∈ f.atoms, P a) :
    ∀ c ∈ f.toDnf, ∀ l ∈ c, ∀ a ∈ l.atom?, P a := by
  refine forall_leaves_toDnf (P := fun l => ∀ a ∈ l.atom?, P a)
    (fun l hl => by rwa [Literal.atom?_opposite]) fun l hl a ha => h a ?_
  rw [atoms_eq_filterMap_leaves]
  exact List.mem_filterMap.mpr ⟨l, hl, ha⟩

end Formula

end RelationalLP
