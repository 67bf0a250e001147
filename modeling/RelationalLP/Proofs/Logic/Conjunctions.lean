import Mathlib
import RelationalLP.Proofs.Logic.Atoms

/-! # Conjunctions of atoms

A formula that is built from atoms by conjunction has one conjunction in its normal form: its atoms, in
order and without what simplification drops as repeated. -/

namespace RelationalLP

variable {K : Type}

namespace Formula

mutual

/-- Whether a formula is built from atoms by conjunction; the formula that always holds is the conjunction
of no atoms. -/
def isConjunctive : Formula K → Bool
  | truth => true
  | atom _ => true
  | conj fs => areConjunctive fs
  | _ => false

/-- Whether each formula of a list is a conjunction of atoms. -/
def areConjunctive : List (Formula K) → Bool
  | [] => true
  | f :: fs => f.isConjunctive && areConjunctive fs

end

theorem areConjunctive_iff {fs : List (Formula K)} :
    areConjunctive fs = true ↔ ∀ f ∈ fs, f.isConjunctive = true := by
  induction fs with
  | nil => simp [areConjunctive]
  | cons f fs ih => rw [areConjunctive, Bool.and_eq_true, ih, List.forall_mem_cons]

theorem atomsList_eq_flatMap (fs : List (Formula K)) : atomsList fs = fs.flatMap atoms := by
  induction fs with
  | nil => rfl
  | cons f fs ih => rw [atomsList, ih, List.flatMap_cons]

theorem mem_atomsList {fs : List (Formula K)} {a : Atom K} :
    a ∈ atomsList fs ↔ ∃ f ∈ fs, a ∈ f.atoms := by
  rw [atomsList_eq_flatMap, List.mem_flatMap]

mutual

/-- The terms of a conjunction of atoms are the arguments of its atoms. -/
theorem terms_of_isConjunctive : (f : Formula K) → f.isConjunctive = true →
    f.terms = f.atoms.flatMap Atom.arguments
  | truth, _ => rfl
  | atom _, _ => (List.flatMap_singleton ..).symm
  | conj fs, h => termsList_of_areConjunctive fs h

theorem termsList_of_areConjunctive : (fs : List (Formula K)) → areConjunctive fs = true →
    termsList fs = (atomsList fs).flatMap Atom.arguments
  | [], _ => rfl
  | f :: fs, h => by
    obtain ⟨hf, hfs⟩ := Bool.and_eq_true_iff.mp h
    rw [termsList, atomsList, List.flatMap_append, terms_of_isConjunctive f hf,
      termsList_of_areConjunctive fs hfs]

end

/-- A variable of a conjunction of atoms is an argument of one of them. -/
theorem mem_vars_of_isConjunctive {f : Formula K} (h : f.isConjunctive = true) {s : Symbol} :
    s ∈ f.vars ↔ ∃ a ∈ f.atoms, .var s ∈ a.arguments := by
  rw [vars, mem_distinct, mem_occurrences_iff, terms_of_isConjunctive f h, List.mem_flatMap]

/-! ### Normal form -/

theorem foldl_product_singletons (cs : List (Conjunction K)) (c : Conjunction K) :
    (cs.map ([·])).foldl Dnf.product [c] = [c ++ cs.flatten] := by
  induction cs generalizing c with
  | nil => simp
  | cons d cs ih =>
    rw [List.map_cons, List.foldl_cons, List.flatten_cons, ← List.append_assoc, ← ih (c ++ d)]
    rfl

/-- The product of normal forms of one conjunction each. -/
theorem productAll_singletons (cs : List (Conjunction K)) :
    Dnf.productAll (cs.map ([·])) = [cs.flatten] :=
  foldl_product_singletons cs []

mutual

/-- **The normal form of a conjunction of atoms** is the conjunction of these atoms. -/
theorem dnf_of_isConjunctive : (f : Formula K) → f.isConjunctive = true →
    f.dnf false = [f.atoms.map .positive]
  | truth, _ => rfl
  | atom _, _ => rfl
  | conj fs, h => by
    have hparts : dnfList false fs = (fs.map fun f => f.atoms.map .positive).map ([·]) :=
      dnfList_of_areConjunctive fs h
    show Dnf.productAll (dnfList false fs) = _
    rw [hparts, productAll_singletons, atoms, atomsList_eq_flatMap, List.map_flatMap, List.flatMap_def]

theorem dnfList_of_areConjunctive : (fs : List (Formula K)) → areConjunctive fs = true →
    dnfList false fs = (fs.map fun f => f.atoms.map .positive).map ([·])
  | [], _ => rfl
  | f :: fs, h => by
    obtain ⟨hf, hfs⟩ := Bool.and_eq_true_iff.mp h
    rw [dnfList, dnf_of_isConjunctive f hf, dnfList_of_areConjunctive fs hfs]
    rfl

end

/-! ### Simplification -/

/-- The parts of a conjunction of atoms. -/
theorem parts_of_isConjunctive {f : Formula K} (h : f.isConjunctive = true) :
    (∀ g ∈ Connective.conj.parts f, g.isConjunctive = true)
      ∧ atomsList (Connective.conj.parts f) = f.atoms := by
  cases f with
  | conj fs => exact ⟨areConjunctive_iff.mp h, rfl⟩
  | _ => exact ⟨List.forall_mem_singleton.mpr h, List.append_nil _⟩

theorem collapse_of_isConjunctive {fs : List (Formula K)} (h : ∀ f ∈ fs, f.isConjunctive = true) :
    (Connective.conj.collapse fs).isConjunctive = true
      ∧ (Connective.conj.collapse fs).atoms = atomsList fs := by
  match fs with
  | [] => exact ⟨rfl, rfl⟩
  | [f] => exact ⟨h f (List.mem_singleton_self f), (List.append_nil _).symm⟩
  | f :: g :: fs => exact ⟨areConjunctive_iff.mpr h, rfl⟩

variable [Scalar K]

/-- Joining conjunctions of atoms gives the conjunction of their atoms. -/
theorem join_of_isConjunctive {fs : List (Formula K)} (h : ∀ f ∈ fs, f.isConjunctive = true) :
    (Connective.conj.join fs).isConjunctive = true
      ∧ ∀ a, a ∈ (Connective.conj.join fs).atoms ↔ a ∈ atomsList fs := by
  have hdecided : Connective.conj.absorbing ∉ fs := fun hmem => Bool.false_ne_true (h _ hmem)
  rw [Connective.join, if_neg hdecided]
  -- the parts that are joined, and where they come from
  have hparts : ∀ g, g ∈ distinct ((fs.filter (· ≠ Connective.conj.neutral)).flatMap
      Connective.conj.parts) ↔ ∃ f ∈ fs, f ≠ .truth ∧ g ∈ Connective.conj.parts f := by
    intro g
    rw [mem_distinct, List.mem_flatMap]
    simp only [List.mem_filter, decide_eq_true_eq, and_assoc]
    exact Iff.rfl
  generalize distinct ((fs.filter (· ≠ Connective.conj.neutral)).flatMap Connective.conj.parts) = gs
    at hparts
  have hgs : ∀ g ∈ gs, g.isConjunctive = true := by
    intro g hg
    obtain ⟨f, hf, -, hpart⟩ := (hparts g).mp hg
    exact (parts_of_isConjunctive (h f hf)).1 g hpart
  obtain ⟨hconj, hatoms⟩ := collapse_of_isConjunctive hgs
  refine ⟨hconj, fun a => ?_⟩
  rw [hatoms, mem_atomsList, mem_atomsList]
  constructor
  · rintro ⟨g, hg, ha⟩
    obtain ⟨f, hf, -, hpart⟩ := (hparts g).mp hg
    refine ⟨f, hf, ?_⟩
    rw [← (parts_of_isConjunctive (h f hf)).2]
    exact mem_atomsList.mpr ⟨g, hpart, ha⟩
  · rintro ⟨f, hf, ha⟩
    have hne : f ≠ .truth := by
      rintro rfl
      exact List.not_mem_nil ha
    rw [← (parts_of_isConjunctive (h f hf)).2] at ha
    obtain ⟨g, hpart, ha⟩ := mem_atomsList.mp ha
    exact ⟨g, (hparts g).mpr ⟨f, hf, hne, hpart⟩, ha⟩

mutual

/-- **Simplification keeps conjunctions of atoms**, and their atoms up to repetition. -/
theorem simplify_of_isConjunctive : (f : Formula K) → f.isConjunctive = true →
    f.simplify.isConjunctive = true ∧ ∀ a, a ∈ f.simplify.atoms ↔ a ∈ f.atoms
  | truth, _ => ⟨rfl, fun _ => Iff.rfl⟩
  | atom _, _ => ⟨rfl, fun _ => Iff.rfl⟩
  | conj fs, h => by
    obtain ⟨hfs, hatoms⟩ := simplifyList_of_areConjunctive fs h
    obtain ⟨hjoin, hmem⟩ := join_of_isConjunctive hfs
    exact ⟨hjoin, fun a => (hmem a).trans (hatoms a)⟩

theorem simplifyList_of_areConjunctive : (fs : List (Formula K)) → areConjunctive fs = true →
    (∀ f ∈ simplifyList fs, f.isConjunctive = true)
      ∧ ∀ a, a ∈ atomsList (simplifyList fs) ↔ a ∈ atomsList fs
  | [], _ => ⟨nofun, fun _ => Iff.rfl⟩
  | f :: fs, h => by
    obtain ⟨hf, hfs⟩ := Bool.and_eq_true_iff.mp h
    obtain ⟨hf', hatoms⟩ := simplify_of_isConjunctive f hf
    obtain ⟨hfs', hatoms'⟩ := simplifyList_of_areConjunctive fs hfs
    refine ⟨List.forall_mem_cons.mpr ⟨hf', hfs'⟩, fun a => ?_⟩
    rw [simplifyList, atomsList, atomsList, List.mem_append, List.mem_append, hatoms, hatoms']

end

/-- **The normal form of a conjunction of atoms** is one conjunction of the same atoms. -/
theorem exists_toDnf_of_isConjunctive {f : Formula K} (h : f.isConjunctive = true) :
    ∃ as : List (Atom K), f.toDnf = [as.map .positive] ∧ ∀ a, a ∈ as ↔ a ∈ f.atoms := by
  obtain ⟨hconj, hatoms⟩ := simplify_of_isConjunctive f h
  exact ⟨f.simplify.atoms, dnf_of_isConjunctive _ hconj, hatoms⟩

end Formula

end RelationalLP
