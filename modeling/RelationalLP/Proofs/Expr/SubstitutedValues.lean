import Mathlib
import RelationalLP.Proofs.Expr.Substitution
import RelationalLP.Proofs.Expr.ValuePreservation

/-! # Values after substitution

Substitution in stages: what a first binding leaves open, a second one that is apart from it may bind.
Main statement: an expression after the first binding has a value under the second one exactly when it has
this value under both together. In one place errors differ: a symbol bound to a text is no number under both
bindings, and unbound under the second one alone. -/

namespace RelationalLP

variable {K : Type}

/-! ### Unions of bindings -/

namespace Binding

/-- What one binding says, and of other symbols what another one says. -/
def union (b b' : Binding K) : Binding K := ⟨b.entries ++ b'.entries⟩

theorem get?_union (b b' : Binding K) : (b.union b').get? = Valuation.filled b.get? b'.get? := by
  funext s
  obtain ⟨entries⟩ := b
  show (entries ++ b'.entries).lookup s = (entries.lookup s).or (b'.entries.lookup s)
  induction entries with
  | nil => rfl
  | cons p entries ih =>
    rw [List.cons_append, List.lookup_cons, List.lookup_cons]
    cases s == p.1 with
    | true => rfl
    | false => exact ih

variable {u b b' : Binding K}

/-- Without some symbols a union is the union without them. -/
theorem get?_without_filled (h : u.get? = Valuation.filled b.get? b'.get?) (symbols : List Symbol) :
    (u.without symbols).get? = Valuation.filled (b.without symbols).get? (b'.without symbols).get? := by
  funext s
  rw [Valuation.filled, get?_without, get?_without, get?_without, h]
  split
  · rfl
  · rfl

end Binding

/-! ### Substitution in stages -/

section Stages

variable {u b b' : Binding K}

theorem Term.substitute_substitute (h : u.get? = Valuation.filled b.get? b'.get?) (t : Term K) :
    (t.substitute b).substitute b' = t.substitute u := by
  cases t with
  | const c => rfl
  | var s =>
    have hs : u.get? s = (b.get? s).or (b'.get? s) := congrFun h s
    rw [substitute, substitute, hs]
    cases b.get? s with
    | some c => rfl
    | none => rfl

theorem Atom.substitute_substitute (h : u.get? = Valuation.filled b.get? b'.get?) (a : Atom K) :
    (a.substitute b).substitute b' = a.substitute u := by
  simp only [substitute, List.map_map, Function.comp_def, Term.substitute_substitute h]

theorem Comparison.substitute_substitute (h : u.get? = Valuation.filled b.get? b'.get?)
    (c : Comparison K) : (c.substitute b).substitute b' = c.substitute u := by
  simp only [substitute, Term.substitute_substitute h]

mutual

/-- **Substitution in two stages** is substitution by the union. -/
theorem Formula.substitute_substitute (h : u.get? = Valuation.filled b.get? b'.get?) :
    (f : Formula K) → (f.substitute b).substitute b' = f.substitute u
  | .truth => rfl
  | .falsity => rfl
  | .atom a => congrArg atom (a.substitute_substitute h)
  | .compare c => congrArg compare (c.substitute_substitute h)
  | .neg f => congrArg neg (f.substitute_substitute h)
  | .conj fs => congrArg conj (Formula.substituteList_substituteList h fs)
  | .disj fs => congrArg disj (Formula.substituteList_substituteList h fs)

theorem Formula.substituteList_substituteList (h : u.get? = Valuation.filled b.get? b'.get?) :
    (fs : List (Formula K)) → substituteList b' (substituteList b fs) = substituteList u fs
  | [] => rfl
  | f :: fs => congrArg₂ List.cons (f.substitute_substitute h)
      (Formula.substituteList_substituteList h fs)

end

/-- A query keeps its own symbols in both stages. -/
theorem Query.substitute_substitute (h : u.get? = Valuation.filled b.get? b'.get?) (q : Query K) :
    (q.substitute b).substitute b' = q.substitute u := by
  simp only [substitute,
    Formula.substitute_substitute (Binding.get?_without_filled h q.symbols)]

end Stages

/-! ### Evaluation -/

/-- Answers have as many cells as the query has symbols. -/
def Interpretation.AnswersFit (i : Interpretation K Id) : Prop :=
  ∀ symbols f ts, i.answers symbols f = .ok ts → ∀ t ∈ ts, t.length = symbols.length

/-- A listing answers with tuples of the length of the query. -/
theorem Interpretation.answersFit_listing (constants : List (Constant ℚ)) (truthOf : Atom ℚ → Bool)
    (value : Atom ℚ → Except ExprError ℚ) : (listing constants truthOf value).AnswersFit := by
  rintro symbols f ts hts t ht
  obtain rfl := Except.ok.inj hts
  obtain ⟨htuple, -⟩ := List.mem_filter.mp ht
  have hworld : t ∈ World.tuples ⟨constants.toFinset, truthOf⟩ symbols.length :=
    mem_tuplesOf.mp htuple
  exact (World.mem_tuples.mp hworld).1

/-- Adding up what one function gives is adding up what another one gives, where these agree on values. -/
theorem foldlM_add_eq_ok_congr {ε α : Type} [Add K] {f g : α → ExceptT ε Id K} {xs : List α}
    (h : ∀ x ∈ xs, ∀ v, f x = .ok v ↔ g x = .ok v) (a v : K) :
    xs.foldlM (fun total x => do return total + (← f x)) a = .ok v
      ↔ xs.foldlM (fun total x => do return total + (← g x)) a = .ok v := by
  induction xs generalizing a with
  | nil => exact Iff.rfl
  | cons x xs ih =>
    obtain ⟨hx, hxs⟩ := List.forall_mem_cons.mp h
    simp only [foldlM_add_cons_eq_ok_iff, hx, ih hxs]

namespace Expr

variable [Scalar K] {i : Interpretation K Id}

/-- A symbol that is bound to a text has no value, before and after it is substituted. -/
theorem evaluate_symbol_substitute_iff {b b' u : Binding K} (hapart : b.Apart b'.get?)
    (hu : u.get? = Valuation.filled b.get? b'.get?) (s : Symbol) (v : K) :
    ((symbol s : Expr K).substitute b).evaluate i b' = .ok v ↔ (symbol s).evaluate i u = .ok v := by
  have hs : u.get? s = (b.get? s).or (b'.get? s) := congrFun hu s
  rw [evaluate, liftExcept_eq_ok_iff, symbolValue_eq_ok_iff, hs, substitute]
  cases hb : b.get? s with
  | none => exact liftExcept_eq_ok_iff.trans symbolValue_eq_ok_iff
  | some c =>
    rw [Option.bind_some, Option.some_or, Option.bind_some]
    cases hc : c.number? with
    | some q =>
      exact ⟨fun h => congrArg some (Except.ok.inj h), fun h => congrArg Except.ok (Option.some.inj h)⟩
    | none =>
      -- the symbol stays, and the second binding does not bind it
      refine iff_of_false (fun h => ?_) nofun
      have hvalue := symbolValue_eq_ok_iff.mp (liftExcept_eq_ok_iff.mp h)
      rw [hapart s c hb] at hvalue
      cases hvalue

mutual

/-- A value under a binding and then another one is a value under their union. -/
theorem evaluate_substitute_iff (hi : i.AnswersFit) :
    (e : Expr K) → ∀ {b b' u : Binding K}, b.Apart b'.get? →
      u.get? = Valuation.filled b.get? b'.get? →
        ∀ v, (e.substitute b).evaluate i b' = .ok v ↔ e.evaluate i u = .ok v
  | constant q, b, b', u, _, _, v => Iff.rfl
  | symbol s, b, b', u, hapart, hu, v => evaluate_symbol_substitute_iff hapart hu s v
  | atom a, b, b', u, _, hu, v => by
    have hground : groundAtom b' (a.substitute b) = groundAtom u a := by
      rw [groundAtom, groundAtom, a.substitute_substitute hu]
      rfl
    rw [substitute, evaluate, evaluate, hground]
  | add es, b, b', u, hapart, hu, v => evaluateSum_substitute_iff hi es hapart hu 0 v
  | mul es, b, b', u, hapart, hu, v => evaluateProduct_substitute_iff hi es hapart hu 1 v
  | sum q body, b, b', u, hapart, hu, v => by
    rw [substitute, evaluate, evaluate, Query.substitute_substitute hu]
    simp only [exceptT_bind_eq_ok_iff]
    refine exists_congr fun ts => and_congr_right fun hts => ?_
    refine foldlM_add_eq_ok_congr (fun t ht => ?_) 0 v
    -- an answer has a constant for each symbol, so it hides the same symbols from both bindings
    have hlength : t.length = q.symbols.length := hi _ _ ts hts t ht
    refine evaluate_substitute_iff hi body ?_ ?_
    · rw [Binding.get?_extend]
      exact hapart.extend q.symbols t
    · rw [Binding.get?_extend, Binding.get?_extend, hu]
      exact (Valuation.filled_without_extend b hlength b'.get?).symm

theorem evaluateSum_substitute_iff (hi : i.AnswersFit) :
    (es : List (Expr K)) → ∀ {b b' u : Binding K}, b.Apart b'.get? →
      u.get? = Valuation.filled b.get? b'.get? →
        ∀ total v, evaluateSum i b' total (substituteList b es) = .ok v
          ↔ evaluateSum i u total es = .ok v
  | [], _, _, _, _, _, _, _ => Iff.rfl
  | e :: es, b, b', u, hapart, hu, total, v => by
    rw [substituteList, evaluateSum, evaluateSum]
    simp only [exceptT_bind_eq_ok_iff, evaluate_substitute_iff hi e hapart hu,
      evaluateSum_substitute_iff hi es hapart hu]

theorem evaluateProduct_substitute_iff (hi : i.AnswersFit) :
    (es : List (Expr K)) → ∀ {b b' u : Binding K}, b.Apart b'.get? →
      u.get? = Valuation.filled b.get? b'.get? →
        ∀ total v, evaluateProduct i b' total (substituteList b es) = .ok v
          ↔ evaluateProduct i u total es = .ok v
  | [], _, _, _, _, _, _, _ => Iff.rfl
  | e :: es, b, b', u, hapart, hu, total, v => by
    rw [substituteList, evaluateProduct, evaluateProduct]
    simp only [exceptT_bind_eq_ok_iff, evaluate_substitute_iff hi e hapart hu,
      evaluateProduct_substitute_iff hi es hapart hu]

end

/-- **Substitution lemma.** Of two bindings without common symbols the first may be substituted and the
second one left for the evaluation: an expression then has the value that it has under both. -/
theorem evaluate_substitute_union (hi : i.AnswersFit) (e : Expr K) {b b' : Binding K}
    (h : b.Apart b'.get?) (v : K) :
    (e.substitute b).evaluate i b' = .ok v ↔ e.evaluate i (b.union b') = .ok v :=
  evaluate_substitute_iff hi e h (Binding.get?_union b b') v

/-- Under a sum that binds `X` itself an outer `X` is not replaced, and `Y` is bound in the second
stage: `X + sum({X | r(X)}, X * Y)`. -/
theorem evaluate_substitute_union_of_rebound :
    let e : Expr ℚ := add [symbol ⟨"X"⟩,
      sum (.ofSymbols [⟨"X"⟩] (.atom ⟨⟨"r", 1, .boolean, false⟩, [.var ⟨"X"⟩]⟩))
        (mul [symbol ⟨"X"⟩, symbol ⟨"Y"⟩])]
    let i := Interpretation.listing [.integer 1, .integer 2] (fun _ => true) fun _ => .ok 5
    let b : Binding ℚ := ⟨[(⟨"X"⟩, .integer 7)]⟩
    let b' : Binding ℚ := ⟨[(⟨"Y"⟩, .integer 10)]⟩
    i.AnswersFit ∧ b.Apart b'.get? ∧ (e.substitute b).evaluate i b' = .ok 37
      ∧ e.evaluate i (b.union b') = .ok 37 := by
  intro e i b b'
  have hi : i.AnswersFit := Interpretation.answersFit_listing _ _ _
  have hapart : b.Apart b'.get? := by
    intro s c hs
    obtain rfl : s = ⟨"X"⟩ := by
      by_contra hne
      rw [Binding.get?, List.lookup_cons, beq_false_of_ne hne] at hs
      cases hs
    rfl
  have hvalue : (e.substitute b).evaluate i b' = .ok 37 := by
    show (_ : Except ExprError ℚ) = .ok 37
    decide +kernel
  exact ⟨hi, hapart, hvalue, (evaluate_substitute_union hi e hapart 37).mp hvalue⟩

end Expr

end RelationalLP
