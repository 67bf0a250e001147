import Mathlib
import RelationalLP.Proofs.Facts.JoinOrder

/-! # Permuted conjunctions

Over the doubles, cells fall into classes of one value unless two integers meet one real: then the real has
the value of both, which differ. Without such cells a conjunction of atoms has the same answers in every
order of its atoms, up to cells of one value. -/

namespace RelationalLP

/-- **Integers kept apart by reals**: no real of a list has the value of two integers of the list. -/
def Constant.IntegersApart (cs : List (Constant Double)) : Prop :=
  ∀ n m v, .integer n ∈ cs → .integer m ∈ cs → .real v ∈ cs →
    (integer n).sameValue (real v) = true → (integer m).sameValue (real v) = true → n = m

/-- Integers that are kept apart fall into classes of one value, with the reals and the texts. -/
theorem Constant.IntegersApart.classes {cs : List (Constant Double)} (h : IntegersApart cs) :
    Classes cs where
  symm _ _ _ _ hxy := sameValue_symm hxy
  trans := by
    intro x hx y hy z hz hxy hyz
    by_cases hne : x = y
    · exact hne ▸ hyz
    by_cases hne' : y = z
    · exact hne' ▸ hxy
    obtain ⟨a, b, ha, hb, hab⟩ := numEq_of_sameValue hxy hne
    obtain ⟨b', c, hb', hc, hbc⟩ := numEq_of_sameValue hyz hne'
    obtain rfl := Option.some.inj (hb.symm.trans hb')
    obtain hxz | ⟨n, m, rfl, rfl⟩ := sameValue_of_numEq ha hc (Double.numEq_trans hab hbc)
    · exact hxz
    · -- two integers meet in the constant between them, which is a real
      cases y with
      | integer k => exact absurd (congrArg integer (sameValue_integer_iff.mp hxy)) hne
      | real v =>
        have hnm := h n m v hx hz hy hxy (sameValue_symm hyz)
        exact sameValue_integer_iff.mpr hnm
      | text s => cases hb

namespace FactBase

/-- **Conjunction commutes**, as long as no real cell has the value of two integer cells: two formulas
built from the same atoms by conjunction, in whatever order, are answered alike, and every answer of one
has the values of an answer of the other, cell by cell. -/
theorem ask_perm {fb : FactBase Double} {selectors : List Symbol} {f g : Formula Double}
    (hcells : Constant.IntegersApart fb.constants) (hf : f.isConjunctive = true)
    (hg : g.isConjunctive = true) (hperm : f.atoms.Perm g.atoms) (hsel : ∀ s ∈ selectors, s ∈ f.vars) :
    ∃ rows others, fb.ask selectors f none = .ok rows ∧ fb.ask selectors g none = .ok others
      ∧ (∀ t ∈ rows, ∃ u ∈ others, List.Forall₂ (fun c d => c.sameValue d = true) t u)
      ∧ ∀ u ∈ others, ∃ t ∈ rows, List.Forall₂ (fun c d => c.sameValue d = true) u t := by
  have hsel' : ∀ s ∈ selectors, s ∈ g.vars := by
    intro s hs
    obtain ⟨a, ha, harg⟩ := (Formula.mem_vars_of_isConjunctive hf).mp (hsel s hs)
    exact (Formula.mem_vars_of_isConjunctive hg).mpr ⟨a, hperm.mem_iff.mp ha, harg⟩
  obtain ⟨rows, others, hrows, hothers, hleft⟩ :=
    exists_answers_match hcells.classes hf hg (fun _ => hperm.mem_iff) hsel
  obtain ⟨others', rows', hothers', hrows', hright⟩ :=
    exists_answers_match hcells.classes hg hf (fun _ => hperm.mem_iff.symm) hsel'
  obtain rfl := Except.ok.inj (hrows.symm.trans hrows')
  obtain rfl := Except.ok.inj (hothers.symm.trans hothers')
  exact ⟨rows, others, hrows, hothers, hleft, hright⟩

/-- A size that is stored as an integer and as a real of the same value. -/
def measuredSizes : FactBase Double :=
  ⟨[("p", [.integer 5]), ("q", [.real ⟨0x4014000000000000⟩]), ("q", [.real ⟨0x4018000000000000⟩])]⟩

/-- The atom that a relation of one place holds of the variable. -/
def ofX (relation : String) : Formula Double := .atom ⟨⟨relation, 1, .boolean, false⟩, [.var ⟨"X"⟩]⟩

theorem ask_perm_measuredSizes :
    let f := .conj [ofX "p", ofX "q"]
    let g := .conj [ofX "q", ofX "p"]
    Constant.IntegersApart measuredSizes.constants
      ∧ f.isConjunctive = true ∧ g.isConjunctive = true ∧ f.atoms.Perm g.atoms
      ∧ (∀ s ∈ [⟨"X"⟩], s ∈ f.vars)
      ∧ ∃ rows others, measuredSizes.ask [⟨"X"⟩] f none = .ok rows
        ∧ measuredSizes.ask [⟨"X"⟩] g none = .ok others
        ∧ (∀ t ∈ rows, ∃ u ∈ others, List.Forall₂ (fun c d => c.sameValue d = true) t u)
        ∧ ∀ u ∈ others, ∃ t ∈ rows, List.Forall₂ (fun c d => c.sameValue d = true) u t := by
  intro f g
  have hcells : Constant.IntegersApart measuredSizes.constants := by
    intro n m v hn hm _ _ _
    have honly : ∀ k, Constant.integer k ∈ measuredSizes.constants → k = 5 := by
      intro k hk
      simpa [constants, measuredSizes] using hk
    exact (honly n hn).trans (honly m hm).symm
  have hperm : f.atoms.Perm g.atoms := by decide
  have hsel : ∀ s ∈ [⟨"X"⟩], s ∈ f.vars := by decide
  exact ⟨hcells, rfl, rfl, hperm, hsel, ask_perm hcells rfl rfl hperm hsel⟩

/-- Two integers above `2 ^ 53` and the real that has the value of both. -/
def meetingSizes : FactBase Double :=
  ⟨[("p", [.integer 9007199254740992]), ("q", [.integer 9007199254740993]),
    ("r", [.real ⟨0x4340000000000000⟩])]⟩

/-- **Conjunction does not commute where two integers meet in a real.** The real passes both integers when
it comes first; when it comes last the integers have failed each other already. -/
theorem ask_not_perm :
    let f := .conj [ofX "p", ofX "q", ofX "r"]
    let g := .conj [ofX "r", ofX "p", ofX "q"]
    f.isConjunctive = true ∧ g.isConjunctive = true ∧ f.atoms.Perm g.atoms
      ∧ meetingSizes.ask [⟨"X"⟩] f none = .ok []
      ∧ meetingSizes.ask [⟨"X"⟩] g none = .ok [[.real ⟨0x4340000000000000⟩]] := by
  refine ⟨rfl, rfl, by decide, by decide +kernel, by decide +kernel⟩

end FactBase

end RelationalLP
