import Mathlib
import RelationalLP.Number.Double
import RelationalLP.Proofs.Logic.NormalForms
import RelationalLP.Proofs.Logic.Variables

/-! # Truth under simplification

Where the reference evaluation gives a formula a truth value and all its orders compare, the
simplified formula has the same truth value and the disjunctive normal form holds exactly when that
value is true. Both go through three-valued truth: the reference evaluation wants every part of a
formula, simplification may drop parts, and three-valued truth does not notice the difference. -/

namespace RelationalLP

variable {K : Type} [Scalar K] {b : Binding K} {truthOf : Atom K → Bool}

/-! ### Evaluation binds everything -/

/-- A comparison has a truth value only when both sides stand for constants. -/
theorem Comparison.isSome_of_evaluate {c : Comparison K} {x : Bool} (h : c.evaluate b = some x)
    {s : Symbol} (hs : s ∈ c.vars) : (b.get? s).isSome := by
  obtain ⟨x, y, hx, hy, -⟩ := evaluate_eq_some_iff.mp h
  exact isSome_vars_iff.mpr ⟨x, y, hx, hy⟩ s hs

namespace Formula

mutual

/-- A formula has a truth value only when every variable has a constant, also in parts that do not
matter for the value. -/
theorem isSome_of_evaluate {s : Symbol} :
    (f : Formula K) → ∀ {x}, f.evaluate b truthOf = some x → s ∈ f.occurrences → (b.get? s).isSome
  | truth, _, _, hs => absurd hs List.not_mem_nil
  | falsity, _, _, hs => absurd hs List.not_mem_nil
  | atom a, x, hx, hs => by
    have hground : (a.substitute b).isGround = true := by
      by_contra hnot
      rw [evaluate, if_neg hnot] at hx
      cases hx
    exact (a.isSome_groundAt b.get?).mp ((a.isGround_substitute b).mp hground) s hs
  | compare c, _, hx, hs => Comparison.isSome_of_evaluate hx hs
  | neg f, x, hx, hs => by
    obtain ⟨y, hy, -⟩ := Option.map_eq_some_iff.mp hx
    exact isSome_of_evaluate f hy hs
  | conj fs, x, hx, hs => by
    obtain ⟨ys, hys, -⟩ := Option.map_eq_some_iff.mp hx
    exact isSome_of_evaluateList fs hys hs
  | disj fs, x, hx, hs => by
    obtain ⟨ys, hys, -⟩ := Option.map_eq_some_iff.mp hx
    exact isSome_of_evaluateList fs hys hs

theorem isSome_of_evaluateList {s : Symbol} :
    (fs : List (Formula K)) → ∀ {xs}, evaluateList b truthOf fs = some xs →
      s ∈ occurrencesList fs → (b.get? s).isSome
  | [], _, _, hs => absurd hs List.not_mem_nil
  | f :: fs, xs, hxs, hs => by
    rw [evaluateList] at hxs
    split at hxs
    · rename_i y ys hy hys
      rcases List.mem_append.mp hs with hs | hs
      · exact isSome_of_evaluate f hy hs
      · exact isSome_of_evaluateList fs hys hs
    · cases hxs

end

end Formula

/-! ### Literals of the normal form -/

/-- Under a binding of its variables a literal holds exactly when it is true in three values. -/
theorem Literal.holds_iff_kleene {l : Literal K} (hbound : ∀ s ∈ l.vars, (b.get? s).isSome) :
    l.holds b truthOf = true ↔ l.kleene b.get? truthOf = some true := by
  cases l with
  | positive a => simp [holds, kleene, Atom.groundAt_of_bound hbound]
  | negative a => simp [holds, kleene, Atom.groundAt_of_bound hbound]
  | compare c =>
    rw [holds, kleene, beq_iff_eq]
    exact Comparison.evaluate_eq_true_iff

namespace Formula

/-- The conjunctions of the normal form ask only for variables of the formula. -/
theorem mem_occurrences_of_toDnf {f : Formula K} {c : Conjunction K} (hc : c ∈ f.toDnf)
    {l : Literal K} (hl : l ∈ c) {s : Symbol} (hs : s ∈ l.vars) : s ∈ f.occurrences := by
  rw [mem_occurrences_iff]
  exact mem_terms_of_toDnf hc hl (Literal.mem_vars_iff.mp hs)

/-- **Simplification and normal forms keep the truth value.** When a formula has a truth value under
a binding that only orders constants that compare, the simplified formula has the same one, and it is
true exactly when all literals of some conjunction of the normal form hold. -/
theorem simplify_toDnf_preserve_truth {f : Formula K} {x : Bool}
    (hx : f.evaluate b truthOf = some x) (hcompare : f.Comparable b.get?) :
    f.simplify.evaluate b truthOf = some x
      ∧ (x = true ↔ ∃ c ∈ f.toDnf, ∀ l ∈ c, l.holds b truthOf = true) := by
  have hbound : ∀ s ∈ f.occurrences, (b.get? s).isSome := fun s => isSome_of_evaluate f hx
  -- three-valued truth is what simplification keeps
  have hknown : f.simplify.kleene b.get? truthOf = some x := by
    have hf : f.kleene b.get? truthOf = some x := kleene_of_evaluate f hcompare x hx
    rw [kleene_simplify_iff (by rw [hf]; exact nofun)]
    exact hf
  constructor
  · exact evaluate_of_kleene (fun s hs => hbound s (mem_occurrences_of_simplify f hs)) hknown
  · calc x = true
      _ ↔ f.simplify.kleene b.get? truthOf = some true := by rw [hknown, Option.some.injEq]
      _ ↔ f.toDnf.Holds b.get? truthOf := (holds_dnf f.simplify false).symm
      _ ↔ ∃ c ∈ f.toDnf, ∀ l ∈ c, l.holds b truthOf = true := by
        refine exists_congr fun c => and_congr_right fun hc => forall₂_congr fun l hl => ?_
        exact (Literal.holds_iff_kleene fun s hs =>
          hbound s (mem_occurrences_of_toDnf hc hl hs)).symm

/-- `~(r(X) & (X < 3.0 | false)) | X != 2.0`, written with doubles. -/
def nested : Formula Double :=
  disj [
    neg (conj [atom ⟨⟨"r", 1, .boolean, false⟩, [.var ⟨"X"⟩]⟩,
      disj [compare ⟨.var ⟨"X"⟩, .lt, .const (.real ⟨0x4008000000000000⟩)⟩, falsity]]),
    compare ⟨.var ⟨"X"⟩, .ne, .const (.real ⟨0x4000000000000000⟩)⟩]

/-- The binding of `X` to 2.0. -/
def nestedBinding : Binding Double := Binding.empty.bind ⟨"X"⟩ (.real ⟨0x4000000000000000⟩)

/-- Where `X` is 2.0 and `r` holds of nothing the formula is true. It stays so although simplification
drops a part, and a conjunction of the normal form that says so is `~r(X)`. -/
theorem simplify_toDnf_preserve_truth_nested :
    nested.evaluate nestedBinding (fun _ => false) = some true
      ∧ nested.Comparable nestedBinding.get?
      ∧ nested.simplify.evaluate nestedBinding (fun _ => false) = some true
      ∧ ∃ c ∈ nested.toDnf, ∀ l ∈ c, l.holds nestedBinding (fun _ => false) = true := by
  have hx : nested.evaluate nestedBinding (fun _ => false) = some true := by decide +kernel
  have hcompare : nested.Comparable nestedBinding.get? := by
    intro c hc
    -- the order is asked of 2.0 and 3.0; the other comparison is no order
    rcases List.mem_cons.mp hc with rfl | hc
    · rintro - x y hx hy
      obtain rfl := Option.some.inj hx
      obtain rfl := Option.some.inj hy
      decide +kernel
    · rw [List.mem_singleton.mp hc]
      exact nofun
  have hkept := simplify_toDnf_preserve_truth hx hcompare
  exact ⟨hx, hcompare, hkept.1, hkept.2.mp rfl⟩

end Formula

end RelationalLP
