import Mathlib
import RelationalLP.Logic.Simplify
import RelationalLP.Proofs.Logic.Valuation

/-! # Three-valued truth

The strong three-valued logic of Kleene: a formula has a truth value as soon as its known parts decide
it, and none otherwise. A comparison is open while a side has no constant, and so is an order between
constants that do not compare. This reading does not depend on the order of evaluation, simplification
keeps every truth value, and where all variables have constants and all orders compare it is the
reference meaning of formulas. -/

namespace RelationalLP

variable {K : Type}

/-! ### Connectives of three values -/

namespace Connective

/-- The truth value that decides a connective alone. -/
def decisive : Connective → Bool
  | conj => false
  | disj => true

/-- A connective of three values: a decisive value decides, otherwise every value has to be known. -/
def combine (o : Connective) (vs : List (Option Bool)) : Option Bool :=
  if some o.decisive ∈ vs then some o.decisive
  else if none ∈ vs then none
  else some (!o.decisive)

variable {o : Connective} {vs ws : List (Option Bool)}

theorem combine_eq_decisive : o.combine vs = some o.decisive ↔ some o.decisive ∈ vs := by
  rw [combine]
  split
  · rename_i h
    exact iff_of_true rfl h
  · rename_i h
    split
    · exact iff_of_false nofun h
    · exact iff_of_false (by simp) h

theorem combine_eq_not_decisive :
    o.combine vs = some (!o.decisive) ↔ ∀ v ∈ vs, v = some (!o.decisive) := by
  rw [combine]
  split
  · rename_i h
    exact iff_of_false (by simp) fun hall => by simpa using hall _ h
  · rename_i h
    split
    · rename_i hnone
      exact iff_of_false nofun fun hall => nomatch hall _ hnone
    · rename_i hnone
      refine iff_of_true rfl fun v hv => ?_
      cases v with
      | none => exact absurd hv hnone
      | some b =>
        have hb : b ≠ o.decisive := fun heq => h (heq ▸ hv)
        rw [Bool.eq_not_of_ne hb]

/-- Lists with the same decisive values, and the same undecisive ones throughout, combine alike. -/
theorem combine_ext (hsome : some o.decisive ∈ vs ↔ some o.decisive ∈ ws)
    (hall : (∀ v ∈ vs, v = some (!o.decisive)) ↔ ∀ w ∈ ws, w = some (!o.decisive)) :
    o.combine vs = o.combine ws := by
  refine Option.ext fun b => ?_
  rcases Bool.eq_or_eq_not b o.decisive with rfl | rfl
  · exact combine_eq_decisive.trans (hsome.trans combine_eq_decisive.symm)
  · exact combine_eq_not_decisive.trans (hall.trans combine_eq_not_decisive.symm)

/-- The connective of one value is that value. -/
theorem combine_true_left (c : Option Bool) : conj.combine [some true, c] = c := by
  revert c
  decide

theorem combine_true_right (c : Option Bool) : conj.combine [c, some true] = c := by
  revert c
  decide

theorem combine_false_left (c : Option Bool) : conj.combine [some false, c] = some false := by
  revert c
  decide

theorem combine_singleton (o : Connective) (v : Option Bool) : o.combine [v] = v := by
  refine Option.ext fun b => ?_
  rcases Bool.eq_or_eq_not b o.decisive with rfl | rfl
  · rw [combine_eq_decisive, List.mem_singleton, eq_comm]
  · rw [combine_eq_not_decisive, List.forall_mem_singleton]

/-- Only the values matter, not their order and number. -/
theorem combine_congr (h : ∀ v, v ∈ vs ↔ v ∈ ws) : o.combine vs = o.combine ws :=
  combine_ext (h _) (by simp only [h])

/-- Parts of one connective combine like the parts of their parts. -/
theorem combine_flatMap {α : Type} (xs : List α) (f : α → List (Option Bool)) :
    o.combine (xs.flatMap f) = o.combine (xs.map fun x => o.combine (f x)) := by
  apply combine_ext
  · simp only [List.mem_flatMap, List.mem_map, combine_eq_decisive]
  · simp only [List.forall_mem_map, combine_eq_not_decisive, List.mem_flatMap]
    constructor
    · intro h x hx v hv
      exact h v ⟨x, hx, hv⟩
    · rintro h v ⟨x, hx, hv⟩
      exact h x hx v hv

/-- What is known of the parts stays known of the whole when more becomes known. -/
theorem combine_mono (h : List.Forall₂ (fun v w => ∀ x, v = some x → w = some x) vs ws) {x : Bool}
    (hx : o.combine vs = some x) : o.combine ws = some x := by
  rcases Bool.eq_or_eq_not x o.decisive with rfl | rfl
  · obtain ⟨w, hw, hvw⟩ := exists_of_forall₂_left h (combine_eq_decisive.mp hx)
    exact combine_eq_decisive.mpr (hvw _ rfl ▸ hw)
  · have hall := combine_eq_not_decisive.mp hx
    exact combine_eq_not_decisive.mpr (forall_mem_of_forall₂ h fun v hv w hvw => hvw _ (hall v hv))

end Connective

/-! ### Truth of formulas -/

/-- Whether an operator asks for an order. -/
def CompareOp.isOrder : CompareOp → Bool
  | .eq | .ne => false
  | .lt | .le | .ge | .gt => true

/-- The truth value of an operator after a comparison by value. Constants that do not compare are
unequal, and an order between them stays open. -/
def CompareOp.kleene (op : CompareOp) : Option Ordering → Option Bool
  | some o => some (op.holds o)
  | none => match op with
    | .eq => some false
    | .ne => some true
    | .lt | .le | .ge | .gt => none

theorem CompareOp.kleene_negate (op : CompareOp) (o : Option Ordering) :
    op.negate.kleene o = (op.kleene o).map (!·) := by
  cases o with
  | none => cases op <;> rfl
  | some o => rw [kleene, kleene, holds_negate, Option.map_some]

section Truth

variable [Scalar K] (v : Valuation K) (truthOf : Atom K → Bool)

/-- The truth value of a comparison. -/
def Comparison.kleene (c : Comparison K) : Option Bool :=
  match c.left.valueAt v, c.right.valueAt v with
  | some x, some y => c.op.kleene (x.compareValue y)
  | _, _ => none

namespace Formula

mutual

/-- The truth value of a formula, ground atoms being decided by `truthOf`. -/
def kleene : Formula K → Option Bool
  | truth => some true
  | falsity => some false
  | atom a => (a.groundAt v).map truthOf
  | compare c => c.kleene v
  | neg f => f.kleene.map (!·)
  | conj fs => Connective.conj.combine (kleeneList fs)
  | disj fs => Connective.disj.combine (kleeneList fs)

/-- The truth values of a list of formulas. -/
def kleeneList : List (Formula K) → List (Option Bool)
  | [] => []
  | f :: fs => f.kleene :: kleeneList fs

end

theorem kleeneList_eq_map (fs : List (Formula K)) :
    kleeneList v truthOf fs = fs.map (kleene v truthOf) := by
  induction fs with
  | nil => rfl
  | cons f fs ih => rw [kleeneList, ih, List.map_cons]

theorem kleene_apply (o : Connective) (fs : List (Formula K)) :
    (o.apply fs).kleene v truthOf = o.combine (fs.map (kleene v truthOf)) := by
  rw [← kleeneList_eq_map]
  cases o <;> rfl

end Formula

end Truth

/-! ### Renaming, substitution and agreement -/

theorem Comparison.mem_vars {c : Comparison K} {s : Symbol} :
    s ∈ c.vars ↔ c.left.symbol? = some s ∨ c.right.symbol? = some s := by
  simp [Comparison.vars, List.mem_filterMap]

/-- The symbols of a comparison have constants exactly when both sides stand for one. -/
theorem Comparison.isSome_vars_iff {v : Valuation K} {c : Comparison K} :
    (∀ s ∈ c.vars, (v s).isSome) ↔ ∃ x y, c.left.valueAt v = some x ∧ c.right.valueAt v = some y := by
  have hleft := c.left.isSome_valueAt v
  have hright := c.right.isSome_valueAt v
  simp only [mem_vars, or_imp, forall_and, exists_and_left, exists_and_right]
  rw [← Option.isSome_iff_exists, ← Option.isSome_iff_exists, hleft, hright]
  rfl

/-- A comparison under a binding reads both sides as constants. -/
theorem Comparison.evaluate_eq [Scalar K] (b : Binding K) (c : Comparison K) :
    c.evaluate b = match c.left.valueAt b.get?, c.right.valueAt b.get? with
      | some x, some y => some (Comparison.decide c.op x y)
      | _, _ => none := by
  obtain ⟨left, op, right⟩ := c
  rw [Comparison.evaluate, Term.substitute_eq, Term.substitute_eq]
  cases left with
  | const x =>
    cases right with
    | const y => rfl
    | var s => cases hs : (Term.var s).valueAt b.get? <;> rfl
  | var t =>
    cases ht : (Term.var t).valueAt b.get? with
    | none => rfl
    | some x =>
      cases right with
      | const y => rfl
      | var s => cases hs : (Term.var s).valueAt b.get? <;> rfl

section Transport

variable [Scalar K] {v w : Valuation K} {truthOf : Atom K → Bool}

/-- A comparison is known when it is known of the constants that its sides stand for. -/
theorem Comparison.kleene_eq_some_iff {c : Comparison K} {z : Bool} :
    c.kleene v = some z ↔ ∃ x y, c.left.valueAt v = some x ∧ c.right.valueAt v = some y
      ∧ c.op.kleene (x.compareValue y) = some z := by
  rw [Comparison.kleene]
  cases c.left.valueAt v with
  | none => simp
  | some x => cases c.right.valueAt v <;> simp

/-- A comparison has the truth value that is decided for the constants that its sides stand for. -/
theorem Comparison.evaluate_eq_some_iff {b : Binding K} {c : Comparison K} {z : Bool} :
    c.evaluate b = some z ↔ ∃ x y, c.left.valueAt b.get? = some x ∧ c.right.valueAt b.get? = some y
      ∧ Comparison.decide c.op x y = z := by
  rw [evaluate_eq]
  cases c.left.valueAt b.get? with
  | none => simp
  | some x => cases c.right.valueAt b.get? <;> simp

theorem Comparison.kleene_rename (r : Renaming) (c : Comparison K) :
    (c.rename r).kleene v = c.kleene (v.renamed r) := by
  simp only [Comparison.kleene, Comparison.rename, Term.valueAt_rename]

theorem Comparison.kleene_substitute (b : Binding K) (c : Comparison K) :
    (c.substitute b).kleene v = c.kleene (Valuation.filled b.get? v) := by
  simp only [Comparison.kleene, Comparison.substitute, Term.valueAt_substitute]

theorem Comparison.kleene_congr {c : Comparison K} (h : ∀ s ∈ c.vars, v s = w s) :
    c.kleene v = c.kleene w := by
  rw [Comparison.kleene, Comparison.kleene,
    Term.valueAt_congr fun s hs => h s (mem_vars.mpr (.inl hs)),
    Term.valueAt_congr fun s hs => h s (mem_vars.mpr (.inr hs))]

namespace Formula

mutual

theorem kleene_rename (r : Renaming) :
    (f : Formula K) → (f.rename r).kleene v truthOf = f.kleene (v.renamed r) truthOf
  | truth => rfl
  | falsity => rfl
  | atom a => congrArg (Option.map truthOf) (a.groundAt_rename r v)
  | compare c => c.kleene_rename r
  | neg f => congrArg (Option.map (!·)) (kleene_rename r f)
  | conj fs => congrArg Connective.conj.combine (kleeneList_rename r fs)
  | disj fs => congrArg Connective.disj.combine (kleeneList_rename r fs)

theorem kleeneList_rename (r : Renaming) :
    (fs : List (Formula K)) →
      kleeneList v truthOf (renameList r fs) = kleeneList (v.renamed r) truthOf fs
  | [] => rfl
  | f :: fs => congrArg₂ List.cons (kleene_rename r f) (kleeneList_rename r fs)

end

mutual

theorem kleene_substitute (b : Binding K) :
    (f : Formula K) →
      (f.substitute b).kleene v truthOf = f.kleene (Valuation.filled b.get? v) truthOf
  | truth => rfl
  | falsity => rfl
  | atom a => congrArg (Option.map truthOf) (a.groundAt_substitute b v)
  | compare c => c.kleene_substitute b
  | neg f => congrArg (Option.map (!·)) (kleene_substitute b f)
  | conj fs => congrArg Connective.conj.combine (kleeneList_substitute b fs)
  | disj fs => congrArg Connective.disj.combine (kleeneList_substitute b fs)

theorem kleeneList_substitute (b : Binding K) :
    (fs : List (Formula K)) → kleeneList v truthOf (substituteList b fs)
      = kleeneList (Valuation.filled b.get? v) truthOf fs
  | [] => rfl
  | f :: fs => congrArg₂ List.cons (kleene_substitute b f) (kleeneList_substitute b fs)

end

mutual

/-- Valuations that agree on the variables of a formula give it the same truth value. -/
theorem kleene_congr :
    (f : Formula K) → (∀ s ∈ f.occurrences, v s = w s) → f.kleene v truthOf = f.kleene w truthOf
  | truth, _ => rfl
  | falsity, _ => rfl
  | atom _, h => congrArg (Option.map truthOf) (Atom.groundAt_congr h)
  | compare _, h => Comparison.kleene_congr h
  | neg f, h => congrArg (Option.map (!·)) (kleene_congr f h)
  | conj fs, h => congrArg Connective.conj.combine (kleeneList_congr fs h)
  | disj fs, h => congrArg Connective.disj.combine (kleeneList_congr fs h)

theorem kleeneList_congr :
    (fs : List (Formula K)) → (∀ s ∈ occurrencesList fs, v s = w s) →
      kleeneList v truthOf fs = kleeneList w truthOf fs
  | [], _ => rfl
  | f :: fs, h => congrArg₂ List.cons
      (kleene_congr f fun s hs => h s (List.mem_append_left _ hs))
      (kleeneList_congr fs fun s hs => h s (List.mem_append_right _ hs))

end

end Formula

end Transport

/-! ### Simplification -/

namespace Connective

variable [Scalar K] (v : Valuation K) (truthOf : Atom K → Bool) (o : Connective)

theorem kleene_absorbing : (o.absorbing (K := K)).kleene v truthOf = some o.decisive := by
  cases o <;> rfl

theorem kleene_neutral : (o.neutral (K := K)).kleene v truthOf = some (!o.decisive) := by
  cases o <;> rfl

/-- A formula has the truth value of its parts together. -/
theorem combine_parts (f : Formula K) :
    o.combine ((o.parts f).map (Formula.kleene v truthOf)) = f.kleene v truthOf := by
  cases o with
  | conj =>
    cases f with
    | conj fs => exact (Formula.kleene_apply v truthOf .conj fs).symm
    | _ => exact combine_singleton .conj _
  | disj =>
    cases f with
    | disj fs => exact (Formula.kleene_apply v truthOf .disj fs).symm
    | _ => exact combine_singleton .disj _

theorem kleene_collapse (fs : List (Formula K)) :
    (o.collapse fs).kleene v truthOf = o.combine (fs.map (Formula.kleene v truthOf)) := by
  match fs with
  | [] => rw [collapse, kleene_neutral, List.map_nil, eq_comm, combine_eq_not_decisive]; exact nofun
  | [f] => exact (combine_singleton o _).symm
  | f :: g :: fs => exact Formula.kleene_apply v truthOf o (f :: g :: fs)

/-- Joining formulas keeps the truth value of their connective. -/
theorem kleene_join (fs : List (Formula K)) :
    (o.join fs).kleene v truthOf = o.combine (fs.map (Formula.kleene v truthOf)) := by
  rw [join]
  split
  · rename_i h
    rw [kleene_absorbing, eq_comm, combine_eq_decisive, ← kleene_absorbing (K := K) v truthOf o]
    exact List.mem_map_of_mem h
  · -- neutral formulas, nesting and repetitions do not matter
    have hdistinct : o.combine ((distinct ((fs.filter (· ≠ o.neutral)).flatMap o.parts)).map
        (Formula.kleene v truthOf))
          = o.combine (((fs.filter (· ≠ o.neutral)).flatMap o.parts).map
              (Formula.kleene v truthOf)) :=
      combine_congr fun x => by simp only [List.mem_map, mem_distinct]
    rw [kleene_collapse, hdistinct, List.map_flatMap, combine_flatMap]
    simp only [combine_parts]
    have hneutral : ∀ f : Formula K, f.kleene v truthOf ≠ some (!o.decisive) → f ≠ o.neutral :=
      fun f hf heq => hf (heq ▸ kleene_neutral v truthOf o)
    apply combine_ext
    · simp only [List.mem_map, List.mem_filter, decide_eq_true_eq]
      constructor
      · rintro ⟨f, ⟨hf, -⟩, hx⟩
        exact ⟨f, hf, hx⟩
      · rintro ⟨f, hf, hx⟩
        exact ⟨f, ⟨hf, hneutral f (by simp [hx])⟩, hx⟩
    · simp only [List.forall_mem_map, List.mem_filter, decide_eq_true_eq]
      constructor
      · intro h f hf
        by_contra hne
        exact hne (h f ⟨hf, hneutral f hne⟩)
      · rintro h f ⟨hf, -⟩
        exact h f hf

end Connective

namespace Formula

variable [Scalar K] {v : Valuation K} {truthOf : Atom K → Bool}

theorem kleene_opposite (f : Formula K) :
    f.opposite.kleene v truthOf = (f.kleene v truthOf).map (!·) := by
  cases f with
  | compare c =>
    simp only [opposite, kleene, Comparison.kleene, Comparison.negate]
    cases c.left.valueAt v with
    | none => rfl
    | some x =>
      cases c.right.valueAt v with
      | none => rfl
      | some y => exact c.op.kleene_negate _
  | neg f =>
    rw [opposite, kleene, Option.map_map]
    cases f.kleene v truthOf <;> simp
  | _ => rfl

/-- A known comparison of two constants has its reference truth value. -/
theorem decide_of_kleene {op : CompareOp} {a b : Constant K} {x : Bool}
    (h : op.kleene (a.compareValue b) = some x) : x = Comparison.decide op a b := by
  rw [Comparison.decide]
  cases hab : a.compareValue b with
  | some o =>
    rw [hab, CompareOp.kleene, Option.some.injEq] at h
    exact h.symm
  | none =>
    rw [hab] at h
    cases op <;> simp_all [CompareOp.kleene]

/-- A comparison of constants that compare where it has to is known. -/
theorem kleene_eq_decide {op : CompareOp} {a b : Constant K}
    (h : op.isOrder = true → a.compareValue b ≠ none) :
    op.kleene (a.compareValue b) = some (Comparison.decide op a b) := by
  rw [Comparison.decide]
  cases hab : a.compareValue b with
  | some o => rfl
  | none => cases op <;> simp_all [CompareOp.kleene, CompareOp.isOrder]

/-- A comparison without variables has its truth value everywhere. -/
theorem evaluate_empty_of_kleene {c : Comparison K} {x y : Bool}
    (hy : c.evaluate .empty = some y) (hx : c.kleene v = some x) : x = y := by
  obtain ⟨left, op, right⟩ := c
  cases left with
  | var s => exact nomatch hy
  | const a =>
    cases right with
    | var s => exact nomatch hy
    | const b =>
      have hdecide : Comparison.decide op a b = y := Option.some.inj hy
      rw [← hdecide]
      exact decide_of_kleene hx

mutual

/-- **Simplification keeps every truth value.** -/
theorem kleene_simplify :
    (f : Formula K) → ∀ x, f.kleene v truthOf = some x → f.simplify.kleene v truthOf = some x
  | truth, _, h => h
  | falsity, _, h => h
  | atom _, _, h => h
  | compare c, x, h => by
    rw [simplify]
    cases hc : c.evaluate .empty with
    | none => exact h
    | some y =>
      obtain rfl := evaluate_empty_of_kleene hc h
      cases x <;> rfl
  | neg f, x, h => by
    rw [simplify, kleene_opposite]
    obtain ⟨y, hy, rfl⟩ := Option.map_eq_some_iff.mp h
    rw [kleene_simplify f y hy, Option.map_some]
  | conj fs, x, h => by
    rw [simplify, Connective.kleene_join, ← kleeneList_eq_map]
    exact Connective.combine_mono (kleeneList_simplifyList fs) h
  | disj fs, x, h => by
    rw [simplify, Connective.kleene_join, ← kleeneList_eq_map]
    exact Connective.combine_mono (kleeneList_simplifyList fs) h

theorem kleeneList_simplifyList :
    (fs : List (Formula K)) → List.Forall₂ (fun v w => ∀ x, v = some x → w = some x)
      (kleeneList v truthOf fs) (kleeneList v truthOf (simplifyList fs))
  | [] => .nil
  | f :: fs => .cons (kleene_simplify f) (kleeneList_simplifyList fs)

end

/-- A known truth value is that of the simplified formula. -/
theorem kleene_simplify_iff {f : Formula K} (h : f.kleene v truthOf ≠ none) {x : Bool} :
    f.simplify.kleene v truthOf = some x ↔ f.kleene v truthOf = some x := by
  refine ⟨fun hx => ?_, kleene_simplify f x⟩
  obtain ⟨y, hy⟩ := Option.ne_none_iff_exists'.mp h
  rw [hy, ← hx, kleene_simplify f y hy]

/-! ### The reference meaning -/

theorem combine_conj_map_some (ys : List Bool) :
    Connective.conj.combine (ys.map some) = some (ys.all id) := by
  cases hall : ys.all id with
  | false =>
    obtain ⟨y, hy, hfalse⟩ := List.all_eq_false.mp hall
    exact Connective.combine_eq_decisive.mpr
      (List.mem_map.mpr ⟨y, hy, congrArg some (Bool.eq_false_iff.mpr hfalse)⟩)
  | true =>
    refine Connective.combine_eq_not_decisive.mpr (List.forall_mem_map.mpr fun y hy => ?_)
    exact congrArg some (List.all_eq_true.mp hall y hy)

theorem combine_disj_map_some (ys : List Bool) :
    Connective.disj.combine (ys.map some) = some (ys.any id) := by
  cases hany : ys.any id with
  | true =>
    obtain ⟨y, hy, htrue⟩ := List.any_eq_true.mp hany
    exact Connective.combine_eq_decisive.mpr (List.mem_map.mpr ⟨y, hy, congrArg some htrue⟩)
  | false =>
    refine Connective.combine_eq_not_decisive.mpr (List.forall_mem_map.mpr fun y hy => ?_)
    exact congrArg some (Bool.eq_false_iff.mpr (List.any_eq_false.mp hany y hy))

mutual

/-- **Under a binding of all variables a formula is evaluated**, to its truth value if that is
known. -/
theorem exists_evaluate {b : Binding K} :
    (f : Formula K) → (∀ s ∈ f.occurrences, (b.get? s).isSome) →
      ∃ y, f.evaluate b truthOf = some y ∧ ∀ x, f.kleene b.get? truthOf = some x → x = y
  | truth, _ => ⟨true, rfl, fun _ hx => (Option.some.inj hx).symm⟩
  | falsity, _ => ⟨false, rfl, fun _ hx => (Option.some.inj hx).symm⟩
  | atom a, h => by
    have hground := (a.isGround_substitute b).mpr ((a.isSome_groundAt b.get?).mpr h)
    refine ⟨truthOf (a.substitute b), if_pos hground, fun x hx => ?_⟩
    rw [kleene, Atom.groundAt_get?, if_pos hground, Option.map_some] at hx
    exact (Option.some.inj hx).symm
  | compare c, h => by
    obtain ⟨x, y, hx, hy⟩ := Comparison.isSome_vars_iff.mp h
    refine ⟨Comparison.decide c.op x y, ?_, fun z hz => ?_⟩
    · rw [evaluate, Comparison.evaluate_eq, hx, hy]
    · rw [kleene, Comparison.kleene, hx, hy] at hz
      exact decide_of_kleene hz
  | neg f, h => by
    obtain ⟨y, hy, hval⟩ := exists_evaluate f h
    refine ⟨!y, by rw [evaluate, hy, Option.map_some], fun x hx => ?_⟩
    obtain ⟨z, hz, rfl⟩ := Option.map_eq_some_iff.mp hx
    rw [hval z hz]
  | conj fs, h => by
    obtain ⟨ys, hys, hvals⟩ := exists_evaluateList fs h
    refine ⟨ys.all id, by rw [evaluate, hys, Option.map_some], fun x hx => ?_⟩
    -- the parts have the values that are evaluated where they are known, and so has the conjunction
    have hall := Connective.combine_mono hvals hx
    rw [combine_conj_map_some] at hall
    exact (Option.some.inj hall).symm
  | disj fs, h => by
    obtain ⟨ys, hys, hvals⟩ := exists_evaluateList fs h
    refine ⟨ys.any id, by rw [evaluate, hys, Option.map_some], fun x hx => ?_⟩
    have hany := Connective.combine_mono hvals hx
    rw [combine_disj_map_some] at hany
    exact (Option.some.inj hany).symm

theorem exists_evaluateList {b : Binding K} :
    (fs : List (Formula K)) → (∀ s ∈ occurrencesList fs, (b.get? s).isSome) →
      ∃ ys, evaluateList b truthOf fs = some ys
        ∧ List.Forall₂ (fun v w => ∀ x, v = some x → w = some x)
            (kleeneList b.get? truthOf fs) (ys.map some)
  | [], _ => ⟨[], rfl, .nil⟩
  | f :: fs, h => by
    obtain ⟨y, hy, hval⟩ := exists_evaluate f fun s hs => h s (List.mem_append_left _ hs)
    obtain ⟨ys, hys, hvals⟩ := exists_evaluateList fs fun s hs => h s (List.mem_append_right _ hs)
    exact ⟨y :: ys, by rw [evaluateList, hy, hys],
      .cons (fun x hx => congrArg some (hval x hx).symm) hvals⟩

end

/-- A known truth value is the reference one when all variables have constants. -/
theorem evaluate_of_kleene {b : Binding K} {f : Formula K} {x : Bool}
    (hbound : ∀ s ∈ f.occurrences, (b.get? s).isSome) (hx : f.kleene b.get? truthOf = some x) :
    f.evaluate b truthOf = some x := by
  obtain ⟨y, hy, hval⟩ : ∃ y, f.evaluate b truthOf = some y ∧ _ := exists_evaluate f hbound
  rw [hy, hval x hx]

end Formula

/-! ### Orders that compare -/

/-- An order is only asked of constants that compare. -/
def Comparison.Comparable [Scalar K] (v : Valuation K) (c : Comparison K) : Prop :=
  c.op.isOrder = true → ∀ x y, c.left.valueAt v = some x → c.right.valueAt v = some y →
    x.compareValue y ≠ none

/-- A comparison of constants that compare where they have to has its reference truth value. -/
theorem Comparison.Comparable.kleene_eq [Scalar K] {b : Binding K} {c : Comparison K}
    (hc : c.Comparable b.get?) {z : Bool} (hz : c.evaluate b = some z) : c.kleene b.get? = some z := by
  obtain ⟨x, y, hx, hy, rfl⟩ := evaluate_eq_some_iff.mp hz
  exact kleene_eq_some_iff.mpr
    ⟨x, y, hx, hy, Formula.kleene_eq_decide fun horder => hc horder x y hx hy⟩

namespace Formula

mutual

/-- The comparisons of a formula. -/
def comparisons : Formula K → List (Comparison K)
  | truth => []
  | falsity => []
  | atom _ => []
  | compare c => [c]
  | neg f => f.comparisons
  | conj fs => comparisonsList fs
  | disj fs => comparisonsList fs

/-- The comparisons of a list of formulas. -/
def comparisonsList : List (Formula K) → List (Comparison K)
  | [] => []
  | f :: fs => f.comparisons ++ comparisonsList fs

end

variable [Scalar K] {truthOf : Atom K → Bool}

/-- Every order of the formula is asked of constants that compare. -/
def Comparable (v : Valuation K) (f : Formula K) : Prop := ∀ c ∈ f.comparisons, c.Comparable v

mutual

/-- Where all orders compare, the reference truth value is known. -/
theorem kleene_of_evaluate {b : Binding K} :
    (f : Formula K) → (∀ c ∈ f.comparisons, c.Comparable b.get?) →
      ∀ x, f.evaluate b truthOf = some x → f.kleene b.get? truthOf = some x
  | truth, _, _, hx => hx
  | falsity, _, _, hx => hx
  | atom a, _, x, hx => by
    rw [kleene, Atom.groundAt_get?]
    rw [evaluate] at hx
    split at hx
    · rename_i hground
      rw [if_pos hground, Option.map_some, hx]
    · cases hx
  | compare c, h, z, hz => (h c List.mem_cons_self).kleene_eq hz
  | neg f, h, x, hx => by
    rw [evaluate] at hx
    obtain ⟨y, hy, rfl⟩ := Option.map_eq_some_iff.mp hx
    rw [kleene, kleene_of_evaluate f h y hy, Option.map_some]
  | conj fs, h, x, hx => by
    rw [evaluate] at hx
    obtain ⟨ys, hys, rfl⟩ := Option.map_eq_some_iff.mp hx
    rw [kleene, kleeneList_of_evaluateList fs h ys hys, combine_conj_map_some]
  | disj fs, h, x, hx => by
    rw [evaluate] at hx
    obtain ⟨ys, hys, rfl⟩ := Option.map_eq_some_iff.mp hx
    rw [kleene, kleeneList_of_evaluateList fs h ys hys, combine_disj_map_some]

theorem kleeneList_of_evaluateList {b : Binding K} :
    (fs : List (Formula K)) → (∀ c ∈ comparisonsList fs, c.Comparable b.get?) →
      ∀ ys, evaluateList b truthOf fs = some ys → kleeneList b.get? truthOf fs = ys.map some
  | [], _, ys, hys => by
    obtain rfl := Option.some.inj hys
    rfl
  | f :: fs, h, ys, hys => by
    rw [evaluateList] at hys
    split at hys
    · rename_i y zs hy hzs
      obtain rfl := Option.some.inj hys
      rw [kleeneList, List.map_cons,
        kleene_of_evaluate f (fun c hc => h c (List.mem_append_left _ hc)) y hy,
        kleeneList_of_evaluateList fs (fun c hc => h c (List.mem_append_right _ hc)) zs hzs]
    · exact nomatch hys

end

/-- Where all orders compare and all variables have constants, every truth value is known. -/
theorem Comparable.kleene_ne_none {b : Binding K} {f : Formula K} (h : f.Comparable b.get?)
    (hbound : ∀ s ∈ f.occurrences, (b.get? s).isSome) : f.kleene b.get? truthOf ≠ none := by
  obtain ⟨y, hy, -⟩ : ∃ y, f.evaluate b truthOf = some y ∧ _ := exists_evaluate f hbound
  rw [kleene_of_evaluate f h y hy]
  exact nofun

end Formula

end RelationalLP
