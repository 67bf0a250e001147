import Mathlib
import RelationalLP.Proofs.Expr.Expansion

/-! # Linear summands

The summands of an expression multiply numeric atoms only, and at most one of these is a decision
variable. Hence a product splits into its plain factors and its decision variable. -/

namespace RelationalLP

variable {K : Type}

/-! ### Factors -/

namespace Factor

/-- A symbol, or a numeric atom. -/
def IsNumeric : Factor K → Prop
  | symbol _ => True
  | atom a => a.template.isBoolean = false

theorem isNumeric_rename (r : Renaming) {f : Factor K} (h : f.IsNumeric) :
    (f.rename r).IsNumeric := by
  cases f <;> exact h

/-- A decision factor is its atom. -/
theorem decision?_eq_some_iff {f : Factor K} {a : Atom K} :
    f.decision? = some a ↔ f = .atom a ∧ a.isDecision = true := by
  cases f with
  | symbol s =>
    constructor
    · intro h
      cases h
    · rintro ⟨h, -⟩
      cases h
  | atom b =>
    rw [decision?]
    split
    · rename_i hb
      constructor
      · intro h
        obtain rfl := Option.some.inj h
        exact ⟨rfl, hb⟩
      · rintro ⟨h, -⟩
        rw [atom.inj h]
    · rename_i hb
      constructor
      · intro h
        cases h
      · rintro ⟨h, ha⟩
        rw [atom.inj h] at hb
        exact absurd ha hb

end Factor

namespace Summand

variable {s t u : Summand K}

/-- The atom of a decision factor is a decision variable. -/
theorem isDecision_of_decision? {a : Atom K} (h : s.decision? = some a) : a.isDecision = true := by
  obtain ⟨f, -, hf⟩ := List.exists_of_findSome?_eq_some h
  exact (Factor.decision?_eq_some_iff.mp hf).2

/-- A product of factors of which at most one is a decision variable. -/
theorem prod_factors_eq_mul {R : Type} [CommMonoid R] (g : Factor K → R) {fs : List (Factor K)}
    (h : (fs.filter (·.decision?.isSome)).length ≤ 1) :
    (fs.map g).prod = ((fs.filter (·.decision?.isNone)).map g).prod
      * ((fs.findSome? Factor.decision?).map fun a => g (.atom a)).getD 1 := by
  induction fs with
  | nil => simp
  | cons f fs ih =>
    cases hf : f.decision? with
    | none =>
      rw [List.filter_cons_of_neg (by simp [hf])] at h
      rw [List.filter_cons_of_pos (by simp [hf]), List.findSome?_cons, hf, List.map_cons,
        List.map_cons, List.prod_cons, List.prod_cons, ih h, mul_assoc]
    | some a =>
      rw [List.filter_cons_of_pos (by simp [hf]), List.length_cons] at h
      have hrest : fs.filter (·.decision?.isNone) = fs := by
        have hnil : fs.filter (·.decision?.isSome) = [] := List.length_eq_zero_iff.mp (by omega)
        rw [List.filter_eq_nil_iff] at hnil
        rw [List.filter_eq_self]
        intro g hg
        simpa using hnil g hg
      obtain ⟨rfl, -⟩ := Factor.decision?_eq_some_iff.mp hf
      rw [List.filter_cons_of_neg (by simp [hf]), hrest, List.findSome?_cons, hf, List.map_cons,
        List.prod_cons, mul_comm, Option.map_some, Option.getD_some]

/-! ### Summands -/

/-- **Linear summands** multiply numeric atoms, and at most one decision variable. -/
structure Linear (s : Summand K) : Prop where
  /-- The atoms are numeric. -/
  numeric : ∀ f ∈ s.factors, f.IsNumeric
  /-- No two decision variables are multiplied. -/
  decisions : (s.factors.filter (·.decision?.isSome)).length ≤ 1

/-- The only decision factor is the decision variable. -/
theorem Linear.decision?_eq_some (hs : s.Linear) {f : Factor K} (hf : f ∈ s.factors) {a : Atom K}
    (ha : f.decision? = some a) : s.decision? = some a := by
  obtain ⟨b, hb⟩ : ∃ b, s.decision? = some b := by
    refine Option.ne_none_iff_exists'.mp fun hnone => ?_
    rw [List.findSome?_eq_none_iff.mp hnone f hf] at ha
    cases ha
  obtain ⟨f', hf', hb'⟩ := List.exists_of_findSome?_eq_some hb
  have hmem : ∀ {g c}, g ∈ s.factors → g.decision? = some c →
      g ∈ s.factors.filter (·.decision?.isSome) := fun hg hc =>
    List.mem_filter.mpr ⟨hg, by rw [hc]; rfl⟩
  have hone : ∀ {gs : List (Factor K)}, gs.length ≤ 1 → ∀ {g g'}, g ∈ gs → g' ∈ gs → g = g' := by
    intro gs hlength g g' hg hg'
    match gs with
    | [] => exact absurd hg List.not_mem_nil
    | [x] => rw [List.mem_singleton.mp hg, List.mem_singleton.mp hg']
    | _ :: _ :: _ => exact absurd hlength (by simp)
  have heq := hone hs.decisions (hmem hf ha) (hmem hf' hb')
  rw [hb, ← hb', ← heq, ha]

variable [Scalar K]

/-- Renaming bound symbols keeps a summand linear. -/
theorem Linear.renameBound (h : s.Linear) (clashes taken : List Symbol) :
    (s.renameBound clashes taken).Linear := by
  have hfactors := (renamed_renameBound clashes taken s).factors_eq
  constructor
  · rw [hfactors, List.forall_mem_map]
    exact fun f hf => Factor.isNumeric_rename _ (h.numeric f hf)
  · rw [hfactors, List.filter_map, List.length_map]
    simp only [Function.comp_def, Factor.isSome_decision?_rename]
    exact h.decisions

/-- A merged summand is linear, since a product of decision variables is refused. -/
theorem Linear.merge (hs : s.Linear) (ht : t.Linear) (h : s.merge t = .ok u) : u.Linear := by
  have heq := merge_eq_ok h
  rw [Summand.merge] at h
  split at h
  · cases h
  · rename_i hle
    rw [heq]
    exact ⟨List.forall_mem_append.mpr ⟨hs.numeric, ht.numeric⟩, not_lt.mp hle⟩

theorem Linear.product (hs : s.Linear) (ht : t.Linear) (h : s.product t = .ok u) : u.Linear :=
  (hs.renameBound _ _).merge (ht.renameBound _ _) h

theorem linear_ofQuery (q : Query K) : (ofQuery q).Linear :=
  ⟨fun _ hf => absurd hf List.not_mem_nil, Nat.zero_le 1⟩

theorem Linear.nest {q : Query K} (hs : s.Linear) (h : (ofQuery q).nest s = .ok u) : u.Linear :=
  (linear_ofQuery q).merge (hs.renameBound _ _) h

end Summand

/-! ### Expansion -/

namespace Expr

open Summand

variable [Scalar K]

theorem linear_number (c : K) : ({ Summand.unit with coefficient := c } : Summand K).Linear :=
  ⟨fun _ hf => absurd hf List.not_mem_nil, Nat.zero_le 1⟩

theorem linear_factor {f : Factor K} (hf : f.IsNumeric) :
    ({ Summand.unit with factors := [f] } : Summand K).Linear :=
  ⟨List.forall_mem_singleton.mpr hf, List.length_filter_le _ _⟩

mutual

/-- **The summands of an expression are linear.** -/
theorem linear_of_expand : (e : Expr K) → ∀ {ss}, e.expand = .ok ss → ∀ s ∈ ss, s.Linear
  | constant q, ss, h => by
    obtain rfl := Except.ok.inj h
    exact List.forall_mem_singleton.mpr (linear_number q)
  | symbol x, ss, h => by
    obtain rfl := Except.ok.inj h
    exact List.forall_mem_singleton.mpr (linear_factor (f := .symbol x) trivial)
  | atom a, ss, h => by
    rw [expand] at h
    split at h
    · cases h
    · rename_i hkind
      obtain rfl := Except.ok.inj h
      exact List.forall_mem_singleton.mpr
        (linear_factor (f := .atom a) (eq_false_of_ne_true hkind))
  | add es, ss, h => linear_of_expandTerms es h
  | mul es, ss, h => linear_of_expandFactors es h (List.forall_mem_singleton.mpr (linear_number 1))
  | sum q body, ss, h => by
    obtain ⟨inner, hbody, h⟩ := bind_eq_ok_iff.mp h
    have hnest : List.Forall₂ (fun s u => (ofQuery q).nest s = .ok u) inner ss :=
      mapM_eq_ok_iff.mp h
    exact forall_mem_of_forall₂ hnest fun s hs u hu => (linear_of_expand body hbody s hs).nest hu

theorem linear_of_expandTerms :
    (es : List (Expr K)) → ∀ {ss}, expandTerms es = .ok ss → ∀ s ∈ ss, s.Linear
  | [], ss, h => by
    obtain rfl := Except.ok.inj h
    exact fun s hs => absurd hs List.not_mem_nil
  | e :: es, ss, h => by
    obtain ⟨first, hfirst, h⟩ := bind_eq_ok_iff.mp h
    obtain ⟨rest, hrest, h⟩ := bind_eq_ok_iff.mp h
    obtain rfl := Except.ok.inj h
    exact List.forall_mem_append.mpr
      ⟨linear_of_expand e hfirst, linear_of_expandTerms es hrest⟩

theorem linear_of_expandFactors :
    (es : List (Expr K)) → ∀ {left ss}, expandFactors left es = .ok ss →
      (∀ s ∈ left, s.Linear) → ∀ s ∈ ss, s.Linear
  | [], left, ss, h, hl => by
    obtain rfl := Except.ok.inj h
    exact hl
  | e :: es, left, ss, h, hl => by
    obtain ⟨right, hright, h⟩ := bind_eq_ok_iff.mp h
    obtain ⟨both, hprod, h⟩ := bind_eq_ok_iff.mp h
    refine linear_of_expandFactors es h ?_
    refine forall_mem_of_forall₂ (mapM_eq_ok_iff.mp hprod) fun p hp s hs => ?_
    obtain ⟨l, hl', hp⟩ := List.mem_flatMap.mp hp
    obtain ⟨r, hr', rfl⟩ := List.mem_map.mp hp
    exact (hl l hl').product (linear_of_expand e hright r hr') hs

end

/-- The nonzero summands of an expression are linear. -/
theorem linear_of_summands {e : Expr K} {ss : List (Summand K)} (h : e.summands = .ok ss) :
    ∀ s ∈ ss, s.Linear := by
  obtain ⟨all, hall, rfl⟩ := summands_eq_ok h
  exact fun s hs => linear_of_expand e hall s (List.mem_of_mem_filter hs)

end Expr

end RelationalLP
