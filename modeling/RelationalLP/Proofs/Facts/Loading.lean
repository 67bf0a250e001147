import Mathlib
import RelationalLP.Proofs.Collections.Traversal
import RelationalLP.Proofs.Facts.Matching
import RelationalLP.Proofs.Facts.StoredRows

/-! # Loading facts

A text that lists facts is loaded by adding its atoms one after another. An atom with a variable stops the
loading, and the facts before it stay: loading is not all or nothing. A text that lists no facts changes
nothing. -/

namespace RelationalLP

variable {K : Type}

/-- An atom without variables is one that has an argument tuple. -/
theorem Atom.isSome_ground?_iff {a : Atom K} : a.ground?.isSome = true ↔ a.vars = [] := by
  rw [Atom.vars, List.filterMap_eq_nil_iff]
  constructor
  · intro h
    obtain ⟨row, hrow⟩ := Option.isSome_iff_exists.mp h
    rw [ground?_eq_some_iff] at hrow
    rw [hrow, List.forall_mem_map]
    exact fun _ _ => rfl
  · intro h
    have hconst : ∀ x ∈ a.arguments, ∃ c, x.constant? = some c := fun x hx => by
      cases x with
      | var s => cases h _ hx
      | const c => exact ⟨c, rfl⟩
    obtain ⟨row, hrow⟩ := exists_forall₂_of_forall_mem hconst
    rw [ground?, mapM_eq_some_iff.mpr hrow]
    rfl

variable [Scalar K]

namespace FactBase

/-! ### Texts that list facts -/

/-- **A text that lists atoms**: it is a conjunction of these atoms, or the one atom. -/
def ListsFacts (text : String) (atoms : List (Atom K)) : Prop :=
  (∃ a, atoms = [a] ∧ Formula.parse text = .ok (.atom a))
    ∨ Formula.parse text = .ok (.conj (atoms.map .atom))

theorem factOf_eq_ok_iff {f : Formula K} {a : Atom K} : factOf f = .ok a ↔ f = .atom a := by
  cases f with
  | atom b => rw [factOf, Except.ok.injEq, Formula.atom.injEq]
  | _ => exact iff_of_false (fun h => by cases h) fun h => by cases h

/-- The atoms that a text lists are those that are read from it. -/
theorem listsFacts_iff {text : String} {atoms : List (Atom K)} :
    ListsFacts text atoms ↔ Formula.parse text >>= factsOf = .ok atoms := by
  rw [bind_eq_ok_iff, ListsFacts]
  constructor
  · rintro (⟨a, rfl, h⟩ | h)
    · exact ⟨_, h, rfl⟩
    · refine ⟨_, h, mapM_eq_ok_iff.mpr ?_⟩
      rw [List.forall₂_map_left_iff, List.forall₂_same]
      exact fun a _ => rfl
  · rintro ⟨f, h, hatoms⟩
    cases f with
    | atom a => exact .inl ⟨a, (Except.ok.inj hatoms).symm, h⟩
    | conj fs =>
      have hfs : List.Forall₂ Eq fs (atoms.map .atom) := by
        rw [List.forall₂_map_right_iff]
        exact (mapM_eq_ok_iff.mp hatoms).imp fun _ _ => factOf_eq_ok_iff.mp
      rw [List.forall₂_eq_eq_eq] at hfs
      exact .inr (hfs ▸ h)
    | _ => cases hatoms

/-! ### Atoms one after another -/

/-- The fact base after atoms have been added one by one. -/
def addAtoms (fb : FactBase K) (atoms : List (Atom K)) : FactBase K :=
  (atoms.map Call.insertAtom).foldl call fb

theorem length_facts_insert (fb : FactBase K) (relation : String) (row : Tuple K) :
    (fb.insert relation row).1.facts.length
      = fb.facts.length + if (fb.insert relation row).2 then 1 else 0 := by
  rw [insert]
  split
  · rfl
  · exact List.length_append

/-- **Adding the atoms of a list** adds all of them and counts the new rows, or adds those before the first
one with a variable and reports that one. -/
theorem insertAtoms_cases (fb : FactBase K) (added : ℕ) (atoms : List (Atom K)) :
    (∃ n, fb.insertAtoms added atoms = (fb.addAtoms atoms, .ok (added + n))
        ∧ (∀ a ∈ atoms, a.vars = []) ∧ (fb.addAtoms atoms).facts.length = fb.facts.length + n)
      ∨ ∃ before a after, atoms = before ++ a :: after ∧ (∀ b ∈ before, b.vars = []) ∧ a.vars ≠ []
        ∧ fb.insertAtoms added atoms = (fb.addAtoms before, .error a) := by
  induction atoms generalizing fb added with
  | nil => exact .inl ⟨0, rfl, nofun, rfl⟩
  | cons a atoms ih =>
    cases hrow : a.ground? with
    | none =>
      -- the first atom has a variable: nothing is added, and it is reported
      refine .inr ⟨[], a, atoms, rfl, nofun, fun hvars => ?_, ?_⟩
      · rw [← Atom.isSome_ground?_iff, hrow] at hvars
        cases hvars
      · rw [insertAtoms, insertAtom?, hrow]
        rfl
    | some row =>
      have hvars : a.vars = [] := Atom.isSome_ground?_iff.mp (by rw [hrow]; rfl)
      have hinsert : fb.insertAtom? a = some (fb.insert a.name row) := by rw [insertAtom?, hrow]; rfl
      have hcall : fb.call (.insertAtom a) = (fb.insert a.name row).1 := by
        rw [call, insertAtom, hinsert]
      have hadd : ∀ as, fb.addAtoms (a :: as) = (fb.insert a.name row).1.addAtoms as := by
        intro as
        rw [addAtoms, List.map_cons, List.foldl_cons, hcall]
        rfl
      -- one step adds the row of the first atom and counts it if it is new
      have hstep : fb.insertAtoms added (a :: atoms) = (fb.insert a.name row).1.insertAtoms
          (added + if (fb.insert a.name row).2 then 1 else 0) atoms := by
        rw [insertAtoms, hinsert]
        obtain ⟨fb', isNew⟩ := fb.insert a.name row
        cases isNew <;> rfl
      rcases ih (fb.insert a.name row).1 (added + if (fb.insert a.name row).2 then 1 else 0) with
        ⟨n, hatoms, hground, hlength⟩ | ⟨before, b, after, rfl, hbefore, hb, hatoms⟩
      · refine .inl ⟨(if (fb.insert a.name row).2 then 1 else 0) + n, ?_,
          List.forall_mem_cons.mpr ⟨hvars, hground⟩, ?_⟩
        · rw [hstep, hatoms, hadd, Nat.add_assoc]
        · rw [hadd, hlength, length_facts_insert, Nat.add_assoc]
      · exact .inr ⟨a :: before, b, after, rfl, List.forall_mem_cons.mpr ⟨hvars, hbefore⟩, hb,
          by rw [hstep, hatoms, hadd]⟩

/-! ### Loading -/

/-- **What loading a text does.** A text that lists atoms without variables is loaded by adding them in order,
and the number of new rows is answered. Where one of the atoms has a variable, those before the first such one
are added all the same, and an error is answered. A text that lists no atoms changes nothing. -/
theorem load_cases (fb : FactBase K) (text : String) :
    (∃ atoms n, ListsFacts text atoms ∧ (∀ a ∈ atoms, a.vars = [])
        ∧ fb.load text = (fb.addAtoms atoms, .ok n)
        ∧ (fb.load text).1.facts.length = fb.facts.length + n)
      ∨ (∃ before a after, ListsFacts text (before ++ a :: after) ∧ (∀ b ∈ before, b.vars = [])
        ∧ a.vars ≠ [] ∧ fb.load text = (fb.addAtoms before, .error (.notGround a.render)))
      ∨ (∀ atoms : List (Atom K), ¬ ListsFacts text atoms)
        ∧ ∃ e, fb.load text = (fb, .error (.expression e)) := by
  cases hfacts : (Formula.parse text >>= factsOf : Except ExprError (List (Atom K))) with
  | error e =>
    -- the text lists no atoms
    refine .inr (.inr ⟨fun atoms hatoms => ?_, e, ?_⟩)
    · cases hfacts.symm.trans (listsFacts_iff.mp hatoms)
    · rw [load, hfacts]
  | ok atoms =>
    have hlists : ListsFacts text atoms := listsFacts_iff.mpr hfacts
    rcases fb.insertAtoms_cases 0 atoms with ⟨n, hatoms, hground, hlength⟩
      | ⟨before, a, after, rfl, hbefore, ha, hatoms⟩
    · have hload : fb.load text = (fb.addAtoms atoms, .ok n) := by
        rw [load, hfacts]
        dsimp only
        rw [hatoms, Nat.zero_add]
      refine .inl ⟨atoms, n, hlists, hground, hload, ?_⟩
      rw [hload]
      exact hlength
    · refine .inr (.inl ⟨before, a, after, hlists, hbefore, ha, ?_⟩)
      rw [load, hfacts]
      dsimp only
      rw [hatoms]

/-- **A load that fails may leave rows behind**: the second atom has a variable, and the first one stays. -/
theorem load_leaves_facts :
    ((empty : FactBase Double).load "node(a) & node(X)").2 = .error (.notGround "node(X)")
      ∧ ((empty : FactBase Double).load "node(a) & node(X)").1.rows "node" = [[.text "a"]]
      ∧ (empty : FactBase Double).rows "node" = [] := by
  refine ⟨by decide +kernel, by decide +kernel, rfl⟩

end FactBase

end RelationalLP
