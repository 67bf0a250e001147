import Mathlib
import RelationalLP.Logic.Dnf

/-! # Terms of formulas

The arguments of the atoms and the sides of the comparisons of a formula, and the literals that these
atoms and comparisons are. Renaming and substitution change the terms one by one; simplification and the
normal form bring no literals in but opposite ones, and no terms. -/

namespace RelationalLP

variable {K : Type}

/-- The sides of a comparison. -/
def Comparison.terms (c : Comparison K) : List (Term K) := [c.left, c.right]

namespace Formula

mutual

/-- The terms of a formula in order of their places, with repetitions. -/
def terms : Formula K → List (Term K)
  | truth => []
  | falsity => []
  | atom a => a.arguments
  | compare c => c.terms
  | neg f => f.terms
  | conj fs => termsList fs
  | disj fs => termsList fs

/-- The terms of a list of formulas. -/
def termsList : List (Formula K) → List (Term K)
  | [] => []
  | f :: fs => f.terms ++ termsList fs

end

theorem termsList_eq_flatMap (fs : List (Formula K)) : termsList fs = fs.flatMap terms := by
  induction fs with
  | nil => rfl
  | cons f fs ih => rw [termsList, ih, List.flatMap_cons]

theorem mem_termsList {fs : List (Formula K)} {t : Term K} :
    t ∈ termsList fs ↔ ∃ f ∈ fs, t ∈ f.terms := by
  rw [termsList_eq_flatMap, List.mem_flatMap]

mutual

/-- The variables of a formula are those of its terms. -/
theorem occurrences_eq_filterMap :
    (f : Formula K) → f.occurrences = f.terms.filterMap Term.symbol?
  | truth => rfl
  | falsity => rfl
  | atom _ => rfl
  | compare _ => rfl
  | neg f => occurrences_eq_filterMap f
  | conj fs => occurrencesList_eq_filterMap fs
  | disj fs => occurrencesList_eq_filterMap fs

theorem occurrencesList_eq_filterMap :
    (fs : List (Formula K)) → occurrencesList fs = (termsList fs).filterMap Term.symbol?
  | [] => rfl
  | f :: fs => by
    rw [occurrencesList, termsList, List.filterMap_append, occurrences_eq_filterMap f,
      occurrencesList_eq_filterMap fs]

end

theorem mem_occurrences_iff {f : Formula K} {s : Symbol} :
    s ∈ f.occurrences ↔ .var s ∈ f.terms := by
  rw [occurrences_eq_filterMap, List.mem_filterMap]
  constructor
  · rintro ⟨t, ht, hs⟩
    cases t with
    | var x => rwa [Option.some.inj hs] at ht
    | const c => cases hs
  · intro h
    exact ⟨.var s, h, rfl⟩

/-! ### Renaming and substitution -/

mutual

theorem terms_rename (r : Renaming) :
    (f : Formula K) → (f.rename r).terms = f.terms.map (Term.rename r)
  | truth => rfl
  | falsity => rfl
  | atom _ => rfl
  | compare _ => rfl
  | neg f => terms_rename r f
  | conj fs => termsList_renameList r fs
  | disj fs => termsList_renameList r fs

theorem termsList_renameList (r : Renaming) :
    (fs : List (Formula K)) → termsList (renameList r fs) = (termsList fs).map (Term.rename r)
  | [] => rfl
  | f :: fs => by
    rw [renameList, termsList, termsList, List.map_append, terms_rename r f,
      termsList_renameList r fs]

end

mutual

theorem terms_substitute (b : Binding K) :
    (f : Formula K) → (f.substitute b).terms = f.terms.map (Term.substitute b)
  | truth => rfl
  | falsity => rfl
  | atom _ => rfl
  | compare _ => rfl
  | neg f => terms_substitute b f
  | conj fs => termsList_substituteList b fs
  | disj fs => termsList_substituteList b fs

theorem termsList_substituteList (b : Binding K) :
    (fs : List (Formula K)) →
      termsList (substituteList b fs) = (termsList fs).map (Term.substitute b)
  | [] => rfl
  | f :: fs => by
    rw [substituteList, termsList, termsList, List.map_append, terms_substitute b f,
      termsList_substituteList b fs]

end

end Formula

/-! ### Literals -/

namespace Literal

/-- The terms of a literal. -/
def terms : Literal K → List (Term K)
  | positive a => a.arguments
  | negative a => a.arguments
  | compare c => c.terms

theorem vars_eq_filterMap (l : Literal K) : l.vars = l.terms.filterMap Term.symbol? := by
  cases l <;> rfl

theorem mem_vars_iff {l : Literal K} {s : Symbol} : s ∈ l.vars ↔ .var s ∈ l.terms := by
  rw [vars_eq_filterMap, List.mem_filterMap]
  constructor
  · rintro ⟨t, ht, hs⟩
    cases t with
    | var x => rwa [Option.some.inj hs] at ht
    | const c => cases hs
  · intro h
    exact ⟨.var s, h, rfl⟩

/-- The literal that says the opposite. -/
def opposite : Literal K → Literal K
  | positive a => negative a
  | negative a => positive a
  | compare c => compare c.negate

theorem terms_opposite (l : Literal K) : l.opposite.terms = l.terms := by
  cases l <;> rfl

end Literal

namespace Formula

mutual

/-- The atoms and comparisons of a formula as literals, in order of their places. -/
def leaves : Formula K → List (Literal K)
  | truth => []
  | falsity => []
  | atom a => [.positive a]
  | compare c => [.compare c]
  | neg f => f.leaves
  | conj fs => leavesList fs
  | disj fs => leavesList fs

/-- The atoms and comparisons of a list of formulas. -/
def leavesList : List (Formula K) → List (Literal K)
  | [] => []
  | f :: fs => f.leaves ++ leavesList fs

end

theorem leavesList_eq_flatMap (fs : List (Formula K)) : leavesList fs = fs.flatMap leaves := by
  induction fs with
  | nil => rfl
  | cons f fs ih => rw [leavesList, ih, List.flatMap_cons]

mutual

/-- The terms of a formula are those of its leaves. -/
theorem terms_eq_flatMap_leaves : (f : Formula K) → f.terms = f.leaves.flatMap Literal.terms
  | truth => rfl
  | falsity => rfl
  | atom _ => (List.flatMap_singleton ..).symm
  | compare _ => (List.flatMap_singleton ..).symm
  | neg f => terms_eq_flatMap_leaves f
  | conj fs => termsList_eq_flatMap_leavesList fs
  | disj fs => termsList_eq_flatMap_leavesList fs

theorem termsList_eq_flatMap_leavesList :
    (fs : List (Formula K)) → termsList fs = (leavesList fs).flatMap Literal.terms
  | [] => rfl
  | f :: fs => by
    rw [termsList, leavesList, List.flatMap_append, terms_eq_flatMap_leaves f,
      termsList_eq_flatMap_leavesList fs]

end

theorem mem_terms_iff_leaves {f : Formula K} {t : Term K} :
    t ∈ f.terms ↔ ∃ l ∈ f.leaves, t ∈ l.terms := by
  rw [terms_eq_flatMap_leaves, List.mem_flatMap]

end Formula

/-! ### Simplification -/

/-- **What holds of all parts holds of their join**, when it holds of a formula of the connective exactly
if it holds of its parts. -/
theorem Connective.join_of_forall [Scalar K] {o : Connective} {P : Formula K → Prop}
    (habsorbing : P o.absorbing) (hneutral : P o.neutral)
    (happly : ∀ fs, P (o.apply fs) ↔ ∀ f ∈ fs, P f) {fs : List (Formula K)} (h : ∀ f ∈ fs, P f) :
    P (o.join fs) := by
  -- the parts of a formula of the same connective are taken apart
  have hparts : ∀ f, P f → ∀ g ∈ o.parts f, P g := by
    intro f hf g hg
    have hsingle : g ∈ [f] → P g := fun hmem => List.mem_singleton.mp hmem ▸ hf
    cases o with
    | conj =>
      cases f with
      | conj fs => exact (happly fs).mp hf g hg
      | _ => exact hsingle hg
    | disj =>
      cases f with
      | disj fs => exact (happly fs).mp hf g hg
      | _ => exact hsingle hg
  have hcollapse : ∀ gs : List (Formula K), (∀ g ∈ gs, P g) → P (o.collapse gs) := by
    intro gs hgs
    match gs with
    | [] => exact hneutral
    | [g] => exact hgs g (List.mem_singleton_self g)
    | g :: g' :: gs => exact (happly _).mpr hgs
  rw [join]
  split
  · exact habsorbing
  · refine hcollapse _ fun g hg => ?_
    obtain ⟨f, hf, hpart⟩ := List.mem_flatMap.mp (mem_distinct.mp hg)
    exact hparts f (h f (List.mem_of_mem_filter hf)) g hpart

namespace Formula

variable {P : Literal K → Prop}

theorem forall_leaves_apply (o : Connective) (fs : List (Formula K)) :
    (∀ l ∈ (o.apply fs).leaves, P l) ↔ ∀ f ∈ fs, ∀ l ∈ f.leaves, P l := by
  have hlist : (∀ l ∈ leavesList fs, P l) ↔ ∀ f ∈ fs, ∀ l ∈ f.leaves, P l := by
    rw [leavesList_eq_flatMap]
    simp only [List.mem_flatMap]
    exact ⟨fun h f hf l hl => h l ⟨f, hf, hl⟩, fun h l ⟨f, hf, hl⟩ => h f hf l hl⟩
  cases o <;> exact hlist

theorem forall_leaves_join [Scalar K] {o : Connective} {fs : List (Formula K)}
    (h : ∀ f ∈ fs, ∀ l ∈ f.leaves, P l) : ∀ l ∈ (o.join fs).leaves, P l := by
  refine Connective.join_of_forall (P := fun f => ∀ l ∈ f.leaves, P l) ?_ ?_ (forall_leaves_apply o) h
  · cases o <;> exact fun l hl => absurd hl List.not_mem_nil
  · cases o <;> exact fun l hl => absurd hl List.not_mem_nil

theorem forall_leaves_opposite (hP : ∀ l, P l → P l.opposite) {f : Formula K}
    (h : ∀ l ∈ f.leaves, P l) : ∀ l ∈ f.opposite.leaves, P l := by
  cases f with
  | compare c => exact List.forall_mem_singleton.mpr (hP _ (List.forall_mem_singleton.mp h))
  | _ => exact h

mutual

/-- **Simplification brings no literals in** but opposite ones. -/
theorem forall_leaves_simplify [Scalar K] (hP : ∀ l, P l → P l.opposite) :
    (f : Formula K) → (∀ l ∈ f.leaves, P l) → ∀ l ∈ f.simplify.leaves, P l
  | truth, h => h
  | falsity, h => h
  | atom _, h => h
  | compare c, h => by
    rw [simplify]
    split
    · exact fun l hl => absurd hl List.not_mem_nil
    · exact fun l hl => absurd hl List.not_mem_nil
    · exact h
  | neg f, h => forall_leaves_opposite hP (forall_leaves_simplify hP f h)
  | conj fs, h => forall_leaves_join (forall_leaves_simplifyList hP fs h)
  | disj fs, h => forall_leaves_join (forall_leaves_simplifyList hP fs h)

theorem forall_leaves_simplifyList [Scalar K] (hP : ∀ l, P l → P l.opposite) :
    (fs : List (Formula K)) → (∀ l ∈ leavesList fs, P l) →
      ∀ f ∈ simplifyList fs, ∀ l ∈ f.leaves, P l
  | [], _ => fun _ hf => absurd hf List.not_mem_nil
  | f :: fs, h => by
    rw [simplifyList, List.forall_mem_cons]
    exact ⟨forall_leaves_simplify hP f fun l hl => h l (List.mem_append_left _ hl),
      forall_leaves_simplifyList hP fs fun l hl => h l (List.mem_append_right _ hl)⟩

end

/-- **Simplification brings no terms in.** -/
theorem mem_terms_of_simplify [Scalar K] {t : Term K} (f : Formula K) (h : t ∈ f.simplify.terms) :
    t ∈ f.terms := by
  have hleaves : ∀ l ∈ f.simplify.leaves, ∀ u ∈ l.terms, u ∈ f.terms :=
    forall_leaves_simplify (P := fun l => ∀ u ∈ l.terms, u ∈ f.terms)
      (fun l hl => by rwa [Literal.terms_opposite]) f
      fun l hl u hu => mem_terms_iff_leaves.mpr ⟨l, hl, hu⟩
  obtain ⟨l, hl, ht⟩ := mem_terms_iff_leaves.mp h
  exact hleaves l hl t ht

end Formula

/-! ### Normal forms -/

theorem Dnf.mem_product {left right : Dnf K} {c : Conjunction K} :
    c ∈ Dnf.product left right ↔ ∃ l ∈ left, ∃ r ∈ right, l ++ r = c := by
  rw [Dnf.product, List.mem_flatMap]
  simp only [List.mem_map]

theorem Dnf.exists_of_mem_foldl_product {parts : List (Dnf K)} {acc : Dnf K} {c : Conjunction K}
    {l : Literal K} (hc : c ∈ parts.foldl Dnf.product acc) (hl : l ∈ c) :
    (∃ c' ∈ acc, l ∈ c') ∨ ∃ d ∈ parts, ∃ c' ∈ d, l ∈ c' := by
  induction parts generalizing acc with
  | nil => exact .inl ⟨c, hc, hl⟩
  | cons d parts ih =>
    rcases ih hc with ⟨c', hc', hl'⟩ | ⟨e, he, hrest⟩
    · obtain ⟨a, ha, r, hr, rfl⟩ := Dnf.mem_product.mp hc'
      rcases List.mem_append.mp hl' with hl' | hl'
      · exact .inl ⟨a, ha, hl'⟩
      · exact .inr ⟨d, List.mem_cons_self, r, hr, hl'⟩
    · exact .inr ⟨e, List.mem_cons_of_mem _ he, hrest⟩

/-- A literal of a product of normal forms is a literal of one of them. -/
theorem Dnf.exists_of_mem_productAll {parts : List (Dnf K)} {c : Conjunction K} {l : Literal K}
    (hc : c ∈ Dnf.productAll parts) (hl : l ∈ c) : ∃ d ∈ parts, ∃ c' ∈ d, l ∈ c' := by
  rcases exists_of_mem_foldl_product hc hl with ⟨c', hc', hl'⟩ | h
  · rw [List.mem_singleton.mp hc'] at hl'
    exact absurd hl' List.not_mem_nil
  · exact h

namespace Formula

variable {P : Literal K → Prop}

mutual

/-- **The normal form brings no literals in** but opposite ones. -/
theorem forall_leaves_dnf (hP : ∀ l, P l → P l.opposite) :
    (f : Formula K) → (∀ l ∈ f.leaves, P l) → ∀ {n}, ∀ c ∈ f.dnf n, ∀ l ∈ c, P l
  | truth, _, n, c, hc, l, hl => by
    cases n with
    | true => exact absurd hc List.not_mem_nil
    | false => exact absurd (List.mem_singleton.mp hc ▸ hl) List.not_mem_nil
  | falsity, _, n, c, hc, l, hl => by
    cases n with
    | true => exact absurd (List.mem_singleton.mp hc ▸ hl) List.not_mem_nil
    | false => exact absurd hc List.not_mem_nil
  | atom a, h, n, c, hc, l, hl => by
    obtain rfl := List.mem_singleton.mp hc
    obtain rfl := List.mem_singleton.mp hl
    -- under a negation the literal is the opposite one
    have ha : P (.positive a) := List.forall_mem_singleton.mp h
    cases n with
    | true => exact hP _ ha
    | false => exact ha
  | compare d, h, n, c, hc, l, hl => by
    obtain rfl := List.mem_singleton.mp hc
    obtain rfl := List.mem_singleton.mp hl
    have hd : P (.compare d) := List.forall_mem_singleton.mp h
    cases n with
    | true => exact hP _ hd
    | false => exact hd
  | neg f, h, n, c, hc, l, hl => forall_leaves_dnf hP f h c hc l hl
  | conj fs, h, true, c, hc, l, hl => by
    obtain ⟨d, hd, hcd⟩ := List.mem_flatten.mp hc
    exact forall_leaves_dnfList hP fs h d hd c hcd l hl
  | conj fs, h, false, c, hc, l, hl => by
    obtain ⟨d, hd, c', hcd, hl'⟩ := Dnf.exists_of_mem_productAll hc hl
    exact forall_leaves_dnfList hP fs h d hd c' hcd l hl'
  | disj fs, h, true, c, hc, l, hl => by
    obtain ⟨d, hd, c', hcd, hl'⟩ := Dnf.exists_of_mem_productAll hc hl
    exact forall_leaves_dnfList hP fs h d hd c' hcd l hl'
  | disj fs, h, false, c, hc, l, hl => by
    obtain ⟨d, hd, hcd⟩ := List.mem_flatten.mp hc
    exact forall_leaves_dnfList hP fs h d hd c hcd l hl

theorem forall_leaves_dnfList (hP : ∀ l, P l → P l.opposite) :
    (fs : List (Formula K)) → (∀ l ∈ leavesList fs, P l) →
      ∀ {n}, ∀ d ∈ dnfList n fs, ∀ c ∈ d, ∀ l ∈ c, P l
  | [], _, _, _, hd => absurd hd List.not_mem_nil
  | f :: fs, h, n, d, hd => by
    rw [dnfList, List.mem_cons] at hd
    rcases hd with rfl | hd
    · exact forall_leaves_dnf hP f fun l hl => h l (List.mem_append_left _ hl)
    · exact forall_leaves_dnfList hP fs (fun l hl => h l (List.mem_append_right _ hl)) d hd

end

/-- What holds of the leaves of a formula and does not tell opposite literals apart holds of the literals
of its disjunctive normal form. -/
theorem forall_leaves_toDnf [Scalar K] (hP : ∀ l, P l → P l.opposite) {f : Formula K}
    (h : ∀ l ∈ f.leaves, P l) : ∀ c ∈ f.toDnf, ∀ l ∈ c, P l :=
  forall_leaves_dnf hP f.simplify (forall_leaves_simplify hP f h)

/-- **The disjunctive normal form brings no terms in.** -/
theorem mem_terms_of_toDnf [Scalar K] {f : Formula K} {c : Conjunction K} (hc : c ∈ f.toDnf)
    {l : Literal K} (hl : l ∈ c) {t : Term K} (ht : t ∈ l.terms) : t ∈ f.terms :=
  forall_leaves_toDnf (P := fun l => ∀ u ∈ l.terms, u ∈ f.terms)
    (fun l hl => by rwa [Literal.terms_opposite])
    (fun l hl u hu => mem_terms_iff_leaves.mpr ⟨l, hl, hu⟩) c hc l hl t ht

end Formula

end RelationalLP
