import Mathlib
import RelationalLP.Proofs.Expr.Denotation

/-! # Denotations after substitution

Putting a binding into an expression is reading it under the binding: the denotation at a valuation is
that of the original at the valuation that the binding fills up. The valuation may not bind what the
binding binds, because a symbol that is bound to a text is not replaced. -/

namespace RelationalLP

variable {K : Type}

/-! ### The binding of no symbol -/

theorem Term.substitute_empty (t : Term K) : t.substitute .empty = t := by
  cases t <;> rfl

theorem Atom.substitute_empty (a : Atom K) : a.substitute .empty = a := by
  rw [substitute, funext Term.substitute_empty, List.map_id']

namespace Formula

mutual

/-- Without a bound symbol nothing is replaced. -/
theorem substitute_empty : (f : Formula K) → f.substitute .empty = f
  | truth => rfl
  | falsity => rfl
  | atom a => congrArg atom a.substitute_empty
  | compare c => by
    rw [substitute, Comparison.substitute, Term.substitute_empty, Term.substitute_empty]
  | neg f => congrArg neg f.substitute_empty
  | conj fs => congrArg conj (substituteList_empty fs)
  | disj fs => congrArg disj (substituteList_empty fs)

theorem substituteList_empty : (fs : List (Formula K)) → substituteList .empty fs = fs
  | [] => rfl
  | f :: fs => by rw [substituteList, f.substitute_empty, substituteList_empty fs]

end

end Formula

theorem Query.substitute_empty (q : Query K) : q.substitute .empty = q := by
  have hwithout : Binding.empty.without q.symbols = (.empty : Binding K) := rfl
  rw [substitute, hwithout, q.formula.substitute_empty]

/-! ### Reading under a binding -/

/-- A valuation says nothing of the symbols that a binding binds. -/
def Binding.Apart (b : Binding K) (v : Valuation K) : Prop := ∀ s c, b.get? s = some c → v s = none

/-- A valuation that is reached by binding symbols is apart from the binding without them. -/
theorem Binding.Apart.extend {b : Binding K} {v : Valuation K} (h : b.Apart v)
    (symbols : List Symbol) (t : Tuple K) : (b.without symbols).Apart (v.extend symbols t) := by
  intro s c hc
  rw [Binding.get?_without] at hc
  split at hc
  · cases hc
  · rename_i hs
    rw [Valuation.extend_of_notMem _ _ hs]
    exact h s c hc

theorem Binding.apart_unbound (b : Binding K) : b.Apart .unbound := fun _ _ _ => rfl

namespace Expr

variable {R : Type} [CommSemiring R] {w : World} {m : Reading R}

mutual

/-- **Substitution reads an expression under the binding.** -/
theorem denote_substitute :
    (e : Expr ℚ) → ∀ {b : Binding ℚ} {v}, b.Apart v →
      (e.substitute b).denote w m v = e.denote w m (Valuation.filled b.get? v)
  | constant q, b, v, h => rfl
  | symbol s, b, v, h => by
    rw [substitute, denote, Valuation.filled]
    cases hs : b.get? s with
    | none => rfl
    | some c =>
      rw [Option.bind_some, Option.some_or]
      cases hn : c.number? with
      | some x => rw [denote, Reading.symbolValue, Option.bind_some, hn]; rfl
      | none =>
        -- a constant that is no number stays, and the valuation does not bind the symbol either
        have hv : v s = none := h s c hs
        rw [denote, hv, Reading.symbolValue, Reading.symbolValue, Option.bind_some, hn]
        rfl
  | atom a, b, v, h => by
    rw [substitute, denote, denote, Atom.groundAt_substitute]
  | add es, b, v, h => denoteTerms_substitute es h
  | mul es, b, v, h => denoteFactors_substitute es h
  | sum q body, b, v, h => by
    rw [substitute, denote, denote, World.total_eq_sum_tuples, World.total_eq_sum_tuples]
    -- both sum over the same tuples, each of which hides the bound symbols from the binding
    refine Finset.sum_congr rfl fun t ht => ?_
    have hfilled := Valuation.filled_without_extend b (World.mem_tuples.mp ht).1 v
    have hbody := denote_substitute body (h.extend q.symbols t)
    rw [hfilled] at hbody
    simp only [Query.substitute, Formula.kleene_substitute]
    rw [hfilled, hbody]

theorem denoteTerms_substitute :
    (es : List (Expr ℚ)) → ∀ {b : Binding ℚ} {v}, b.Apart v →
      denoteTerms w m (substituteList b es) v = denoteTerms w m es (Valuation.filled b.get? v)
  | [], b, v, h => rfl
  | e :: es, b, v, h => by
    rw [substituteList, denoteTerms, denoteTerms, denote_substitute e h,
      denoteTerms_substitute es h]

theorem denoteFactors_substitute :
    (es : List (Expr ℚ)) → ∀ {b : Binding ℚ} {v}, b.Apart v →
      denoteFactors w m (substituteList b es) v = denoteFactors w m es (Valuation.filled b.get? v)
  | [], b, v, h => rfl
  | e :: es, b, v, h => by
    rw [substituteList, denoteFactors, denoteFactors, denote_substitute e h,
      denoteFactors_substitute es h]

end

mutual

/-- Substitution keeps an expression decided. -/
theorem Decided.substitute :
    (e : Expr ℚ) → ∀ {b : Binding ℚ} {v}, e.Decided w (Valuation.filled b.get? v) →
      (e.substitute b).Decided w v
  | constant _, _, _, _ => trivial
  | symbol s, b, v, h => by
    rw [Expr.substitute]
    cases (b.get? s).bind Constant.number? with
    | some x => exact trivial
    | none => exact trivial
  | atom _, _, _, _ => trivial
  | add es, _, _, h => DecidedList.substitute es h
  | mul es, _, _, h => DecidedList.substitute es h
  | sum q body, b, v, h => by
    intro u hu
    have hreach : w.Reaches q.symbols v u := hu
    -- a binding of the symbols of the query is a tuple for them
    obtain ⟨t, ht, rfl⟩ := hreach.exists_tuple q.nodup
    have hfilled := Valuation.filled_without_extend b (World.mem_tuples.mp ht).1 v
    obtain ⟨hknown, hbody⟩ := h _ (World.reaches_extend q.nodup ht (Valuation.filled b.get? v))
    have hformula : (q.substitute b).formula.kleene (v.extend q.symbols t) w.truthOf
        = q.formula.kleene ((Valuation.filled b.get? v).extend q.symbols t) w.truthOf := by
      rw [← hfilled]
      exact Formula.kleene_substitute _ q.formula
    rw [hformula]
    exact ⟨hknown, fun htrue => Decided.substitute body (by rw [hfilled]; exact hbody htrue)⟩

theorem DecidedList.substitute :
    (es : List (Expr ℚ)) → ∀ {b : Binding ℚ} {v}, DecidedList w es (Valuation.filled b.get? v) →
      DecidedList w (substituteList b es) v
  | [], _, _, _ => trivial
  | e :: es, _, _, h => ⟨Decided.substitute e h.1, DecidedList.substitute es h.2⟩

end

end Expr

end RelationalLP
