import Mathlib
import RelationalLP.Logic.Simplify
import RelationalLP.Proofs.Expr.FreshNames

/-! # Reduced formulas

A formula is reduced when nothing in it is left to simplify: no truth value stands in it and no comparison
of constants, a negation stands over an atom or a connective, and a connective joins two different formulas
at least, none of which is of the same connective. Simplifying gives a truth value or a reduced formula, and
leaves a reduced formula as it is. -/

namespace RelationalLP

variable {K : Type}

namespace Formula

/-- The connective that a formula is built with last. -/
def connective? : Formula K → Option Connective
  | conj _ => some .conj
  | disj _ => some .disj
  | _ => none

/-- Whether a formula may stand below a negation: it is an atom or a connective. -/
def isDeniable : Formula K → Bool
  | atom _ | conj _ | disj _ => true
  | _ => false

/-- **A reduced formula.** -/
inductive Reduced : Formula K → Prop where
  /-- An atom is reduced. -/
  | atom (a : Atom K) : Reduced (atom a)
  /-- A comparison is reduced when it has a variable. -/
  | compare {c : Comparison K} (open_ : c.vars ≠ []) : Reduced (compare c)
  /-- A negation is reduced over a reduced atom or connective. -/
  | neg {f : Formula K} (below : f.Reduced) (deniable : f.isDeniable = true) : Reduced (neg f)
  /-- A connective is reduced over two different reduced formulas at least, none of them of its kind. -/
  | apply (o : Connective) {fs : List (Formula K)} (two : 2 ≤ fs.length) (nodup : fs.Nodup)
      (below : ∀ f ∈ fs, f.Reduced) (flat : ∀ f ∈ fs, f.connective? ≠ some o) : Reduced (o.apply fs)

/-- A truth value or a reduced formula. -/
def Simplified (f : Formula K) : Prop := f = truth ∨ f = falsity ∨ f.Reduced

/-! ### What reduced formulas are made of -/

theorem connective?_apply (o : Connective) (fs : List (Formula K)) :
    (o.apply fs).connective? = some o := by
  cases o <;> rfl

theorem apply_inj {o o' : Connective} {fs gs : List (Formula K)} (h : o.apply fs = o'.apply gs) :
    o = o' ∧ fs = gs := by
  cases o <;> cases o' <;> cases h <;> exact ⟨rfl, rfl⟩

/-- A formula of a connective is that connective of its parts, any other formula is its only part. -/
theorem apply_or_parts_eq (o : Connective) (f : Formula K) :
    (∃ fs, f = o.apply fs ∧ o.parts f = fs) ∨ f.connective? ≠ some o ∧ o.parts f = [f] := by
  cases o with
  | conj =>
    cases f with
    | conj fs => exact .inl ⟨fs, rfl, rfl⟩
    | _ => exact .inr ⟨nofun, rfl⟩
  | disj =>
    cases f with
    | disj fs => exact .inl ⟨fs, rfl, rfl⟩
    | _ => exact .inr ⟨nofun, rfl⟩

/-- The parts of a reduced formula are reduced, and none is of the connective. -/
theorem Reduced.parts {f : Formula K} (h : f.Reduced) (o : Connective) :
    ∀ g ∈ o.parts f, g.Reduced ∧ g.connective? ≠ some o := by
  intro g hg
  rcases apply_or_parts_eq o f with ⟨fs, rfl, hparts⟩ | ⟨hne, hparts⟩
  · rw [hparts] at hg
    generalize hf : o.apply fs = f at h
    cases h with
    | apply o' two nodup below flat =>
      obtain ⟨rfl, rfl⟩ := apply_inj hf
      exact ⟨below g hg, flat g hg⟩
    | _ => cases o <;> cases hf
  · rw [hparts, List.mem_singleton] at hg
    exact hg ▸ ⟨h, hne⟩

/-- Formulas of other kinds are not taken apart. -/
theorem flatMap_parts_eq_self {o : Connective} {fs : List (Formula K)}
    (h : ∀ f ∈ fs, f.connective? ≠ some o) : fs.flatMap o.parts = fs := by
  induction fs with
  | nil => rfl
  | cons f fs ih =>
    obtain ⟨hf, hfs⟩ := List.forall_mem_cons.mp h
    have hparts : o.parts f = [f] := by
      rcases apply_or_parts_eq o f with ⟨gs, rfl, -⟩ | ⟨-, hparts⟩
      · exact absurd (connective?_apply o gs) hf
      · exact hparts
    rw [List.flatMap_cons, hparts, ih hfs, List.singleton_append]

/-- No truth value is reduced. -/
theorem Reduced.ne_truth {f : Formula K} (h : f.Reduced) : f ≠ truth ∧ f ≠ falsity := by
  cases h with
  | apply o => cases o <;> constructor <;> intro heq <;> cases heq
  | _ => constructor <;> intro heq <;> cases heq

theorem Reduced.ne_absorbing {f : Formula K} (h : f.Reduced) (o : Connective) : f ≠ o.absorbing := by
  cases o
  · exact h.ne_truth.2
  · exact h.ne_truth.1

theorem Reduced.ne_neutral {f : Formula K} (h : f.Reduced) (o : Connective) : f ≠ o.neutral := by
  cases o
  · exact h.ne_truth.1
  · exact h.ne_truth.2

theorem simplified_absorbing (o : Connective) : (o.absorbing : Formula K).Simplified := by
  cases o
  · exact .inr (.inl rfl)
  · exact .inl rfl

theorem simplified_neutral (o : Connective) : (o.neutral : Formula K).Simplified := by
  cases o
  · exact .inl rfl
  · exact .inr (.inl rfl)

/-- A simplified formula that a connective does not drop or stop at is reduced. -/
theorem Simplified.reduced {f : Formula K} (h : f.Simplified) {o : Connective} (ha : f ≠ o.absorbing)
    (hn : f ≠ o.neutral) : f.Reduced := by
  rcases h with rfl | rfl | h
  · cases o
    · exact absurd rfl hn
    · exact absurd rfl ha
  · cases o
    · exact absurd rfl ha
    · exact absurd rfl hn
  · exact h

/-! ### Simplifying gives a simplified formula -/

theorem vars_negate (c : Comparison K) : c.negate.vars = c.vars := rfl

/-- **The opposite of a simplified formula is simplified.** -/
theorem Simplified.opposite {f : Formula K} (h : f.Simplified) : f.opposite.Simplified := by
  rcases h with rfl | rfl | h
  · exact .inr (.inl rfl)
  · exact .inl rfl
  · refine .inr (.inr ?_)
    cases h with
    | atom a => exact .neg (.atom a) rfl
    | compare hopen => exact .compare (by rw [vars_negate]; exact hopen)
    | neg below _ => exact below
    | apply o two nodup below flat =>
      have hjoined := Reduced.apply o two nodup below flat
      cases o <;> exact .neg hjoined rfl

variable [Scalar K]

/-- **Joining simplified formulas gives a simplified formula.** -/
theorem simplified_join {o : Connective} {fs : List (Formula K)} (h : ∀ f ∈ fs, f.Simplified) :
    (o.join fs).Simplified := by
  rw [Connective.join]
  split
  · exact simplified_absorbing o
  · rename_i hdecided
    -- what is joined are parts of reduced formulas: nothing was dropped or stopped at
    have hparts : ∀ g ∈ distinct ((fs.filter (· ≠ o.neutral)).flatMap o.parts),
        g.Reduced ∧ g.connective? ≠ some o := by
      intro g hg
      obtain ⟨f, hf, hpart⟩ := List.mem_flatMap.mp (mem_distinct.mp hg)
      obtain ⟨hfs, hneutral⟩ := List.mem_filter.mp hf
      have habsorbing : f ≠ o.absorbing := fun heq => hdecided (heq ▸ hfs)
      have hreduced := (h f hfs).reduced habsorbing (of_decide_eq_true hneutral)
      exact hreduced.parts o g hpart
    have hnodup := nodup_distinct ((fs.filter (· ≠ o.neutral)).flatMap o.parts)
    generalize distinct ((fs.filter (· ≠ o.neutral)).flatMap o.parts) = gs at hparts hnodup
    match gs with
    | [] => exact simplified_neutral o
    | [g] => exact .inr (.inr (hparts g (List.mem_singleton_self g)).1)
    | g :: g' :: gs =>
      refine .inr (.inr (.apply o (Nat.le_add_left 2 gs.length) hnodup ?_ ?_))
      · exact fun f hf => (hparts f hf).1
      · exact fun f hf => (hparts f hf).2

/-- A comparison has a truth value without a binding exactly when it has no variable. -/
theorem evaluate_empty_eq_none_iff {c : Comparison K} : c.evaluate .empty = none ↔ c.vars ≠ [] := by
  obtain ⟨left, op, right⟩ := c
  cases left <;> cases right <;>
    simp [Comparison.evaluate, Comparison.vars, Term.substitute, Term.symbol?]

mutual

/-- **Simplifying gives a simplified formula.** -/
theorem simplified_simplify : (f : Formula K) → f.simplify.Simplified
  | truth => .inl rfl
  | falsity => .inr (.inl rfl)
  | atom a => .inr (.inr (.atom a))
  | compare c => by
    rw [simplify]
    split
    · exact .inl rfl
    · exact .inr (.inl rfl)
    · rename_i hnone
      exact .inr (.inr (.compare (evaluate_empty_eq_none_iff.mp hnone)))
  | neg f => (simplified_simplify f).opposite
  | conj fs => simplified_join (simplified_simplifyList fs)
  | disj fs => simplified_join (simplified_simplifyList fs)

theorem simplified_simplifyList : (fs : List (Formula K)) → ∀ f ∈ simplifyList fs, f.Simplified
  | [] => nofun
  | f :: fs => List.forall_mem_cons.mpr ⟨simplified_simplify f, simplified_simplifyList fs⟩

end

/-! ### A reduced formula stays -/

theorem simplify_apply (o : Connective) (fs : List (Formula K)) :
    (o.apply fs).simplify = o.join (simplifyList fs) := by
  cases o <;> rfl

theorem simplifyList_eq_self {fs : List (Formula K)} (h : ∀ f ∈ fs, f.simplify = f) :
    simplifyList fs = fs := by
  induction fs with
  | nil => rfl
  | cons f fs ih =>
    obtain ⟨hf, hfs⟩ := List.forall_mem_cons.mp h
    rw [simplifyList, hf, ih hfs]

/-- **Joining different reduced formulas of other kinds** is applying the connective to them. -/
theorem join_eq_apply {o : Connective} {fs : List (Formula K)} (two : 2 ≤ fs.length) (nodup : fs.Nodup)
    (below : ∀ f ∈ fs, f.Reduced) (flat : ∀ f ∈ fs, f.connective? ≠ some o) :
    o.join fs = o.apply fs := by
  have hdecided : o.absorbing ∉ fs := fun hmem => (below _ hmem).ne_absorbing o rfl
  have hkept : fs.filter (· ≠ o.neutral) = fs :=
    List.filter_eq_self.mpr fun f hf => decide_eq_true ((below f hf).ne_neutral o)
  rw [Connective.join, if_neg hdecided, hkept, flatMap_parts_eq_self flat, distinct_of_nodup nodup]
  match fs, two with
  | _ :: _ :: _, _ => rfl

/-- **Simplifying leaves a reduced formula as it is.** -/
theorem Reduced.simplify_eq {f : Formula K} (h : f.Reduced) : f.simplify = f := by
  induction h with
  | atom a => rfl
  | compare hopen => rw [simplify, evaluate_empty_eq_none_iff.mpr hopen]
  | @neg f below deniable ih =>
    -- over an atom or a connective the opposite is the negation itself
    rw [simplify, ih]
    cases f with
    | atom _ | conj _ | disj _ => rfl
    | _ => cases deniable
  | apply o two nodup below flat ih =>
    rw [simplify_apply, simplifyList_eq_self ih, join_eq_apply two nodup below flat]

/-- **Simplification reaches its normal form at once**: it gives a truth value or a reduced formula, which
it does not change any more. -/
theorem simplify_reduces (f : Formula K) :
    (f.simplify = truth ∨ f.simplify = falsity ∨ f.simplify.Reduced)
      ∧ f.simplify.simplify = f.simplify := by
  have hsimplified := simplified_simplify f
  refine ⟨hsimplified, ?_⟩
  rcases hsimplified with h | h | h
  · rw [h, simplify]
  · rw [h, simplify]
  · exact h.simplify_eq

end Formula

end RelationalLP
