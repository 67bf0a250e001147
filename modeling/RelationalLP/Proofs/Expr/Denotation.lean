import Mathlib
import RelationalLP.Expr.Summand
import RelationalLP.Proofs.Expr.BoundSymbols
import RelationalLP.Proofs.Expr.Worlds
import RelationalLP.Proofs.Number.Exact

/-! # Denotations

What an expression denotes in a commutative semiring: a reading gives values to numbers and to ground
atoms, a sum ranges over the constants of a world that make its formula true. Reading numbers as
themselves gives the value of an expression; reading them in another semiring tells which of its parts
are asked for at all. -/

namespace RelationalLP

/-- The values of numbers and of ground atoms in a semiring. Numbers keep their products. -/
structure Reading (R : Type) [CommSemiring R] where
  /-- The value of a number. -/
  coefficient : ℚ →* R
  /-- The value of what has none: unbound symbols, texts, atoms with variables. -/
  missing : R
  /-- The value of a ground atom. -/
  value : Atom ℚ → R

namespace Reading

variable {R : Type} [CommSemiring R] (m : Reading R)

/-- The value of a symbol by its constant. -/
def symbolValue (c : Option (Constant ℚ)) : R :=
  ((c.bind Constant.number?).map m.coefficient).getD m.missing

/-- The value of an atom by the ground atom that it stands for. -/
def atomValue (g : Option (Atom ℚ)) : R := (g.map m.value).getD m.missing

end Reading

variable {R : Type} [CommSemiring R] (w : World) (m : Reading R)

/-! ### Expressions -/

namespace Expr

mutual

/-- The denotation of an expression. -/
def denote : Expr ℚ → Valuation ℚ → R
  | constant q, _ => m.coefficient q
  | symbol s, v => m.symbolValue (v s)
  | atom a, v => m.atomValue (a.groundAt v)
  | add es, v => denoteTerms es v
  | mul es, v => denoteFactors es v
  | sum q body, v => w.total q.symbols
      (fun u => if q.formula.kleene u w.truthOf = some true then denote body u else 0) v

/-- The sum of the denotations of a list of expressions. -/
def denoteTerms : List (Expr ℚ) → Valuation ℚ → R
  | [], _ => 0
  | e :: es, v => denote e v + denoteTerms es v

/-- The product of the denotations of a list of expressions. -/
def denoteFactors : List (Expr ℚ) → Valuation ℚ → R
  | [], _ => 1
  | e :: es, v => denote e v * denoteFactors es v

end

mutual

/-- **Decided expressions**: every formula that is reached has a truth value. -/
def Decided : Expr ℚ → Valuation ℚ → Prop
  | constant _, _ => True
  | symbol _, _ => True
  | atom _, _ => True
  | add es, v => DecidedList es v
  | mul es, v => DecidedList es v
  | sum q body, v => ∀ u, w.Reaches q.symbols v u → q.formula.kleene u w.truthOf ≠ none
      ∧ (q.formula.kleene u w.truthOf = some true → Decided body u)

/-- Every expression of a list is decided. -/
def DecidedList : List (Expr ℚ) → Valuation ℚ → Prop
  | [], _ => True
  | e :: es, v => Decided e v ∧ DecidedList es v

end

mutual

/-- The symbols of an expression outside the sums that bind them. -/
def freeVars : Expr ℚ → List Symbol
  | constant _ => []
  | symbol s => [s]
  | atom a => a.vars
  | add es => freeVarsList es
  | mul es => freeVarsList es
  | sum q body => (q.formula.occurrences ++ freeVars body).filter (· ∉ q.symbols)

/-- The free symbols of a list of expressions. -/
def freeVarsList : List (Expr ℚ) → List Symbol
  | [] => []
  | e :: es => freeVars e ++ freeVarsList es

end

end Expr

/-! ### Summands -/

/-- The denotation of a factor. -/
def Factor.denote (v : Valuation ℚ) : Factor ℚ → R
  | .atom a => m.atomValue (a.groundAt v)
  | .symbol s => m.symbolValue (v s)

theorem Factor.denote_congr {m : Reading R} {v u : Valuation ℚ} {f : Factor ℚ}
    (h : ∀ x ∈ f.vars, v x = u x) : f.denote m v = f.denote m u := by
  cases f with
  | atom a => exact congrArg m.atomValue (Atom.groundAt_congr h)
  | symbol s => exact congrArg m.symbolValue (h s List.mem_cons_self)

namespace Summand

/-- The truth value of the condition of a summand. -/
def condition (s : Summand ℚ) (v : Valuation ℚ) : Option Bool :=
  match s.query with
  | none => some true
  | some q => q.formula.kleene v w.truthOf

/-- The denotation of the product without the sum around it. -/
def bodyDenote (s : Summand ℚ) (v : Valuation ℚ) : R :=
  m.coefficient s.coefficient * (s.factors.map (Factor.denote m v)).prod

/-- The denotation of a product where the condition holds. -/
def term (s : Summand ℚ) (v : Valuation ℚ) : R :=
  if s.condition w v = some true then s.bodyDenote m v else 0

/-- The denotation of a summand. -/
def denote (s : Summand ℚ) (v : Valuation ℚ) : R := w.total s.bound (s.term w m) v

/-- **Decided summands**: the condition always has a truth value. -/
def Decided (s : Summand ℚ) (v : Valuation ℚ) : Prop :=
  ∀ u, w.Reaches s.bound v u → s.condition w u ≠ none

variable {w m} {s t : Summand ℚ} {v u : Valuation ℚ}

/-- The condition depends on the variables of the summand. -/
theorem condition_congr (h : ∀ x ∈ s.vars, v x = u x) : s.condition w v = s.condition w u := by
  rw [condition, condition]
  split
  · rfl
  · rename_i q hq
    exact Formula.kleene_congr q.formula fun x hx => h x (mem_vars.mpr (.inr (.inl ⟨q, hq, hx⟩)))

theorem bodyDenote_congr (h : ∀ x ∈ s.vars, v x = u x) :
    s.bodyDenote m v = s.bodyDenote m u := by
  rw [bodyDenote, bodyDenote, List.map_congr_left fun f hf => Factor.denote_congr fun x hx =>
    h x (mem_vars.mpr (.inr (.inr ⟨f, hf, hx⟩)))]

theorem term_congr (h : ∀ x ∈ s.vars, v x = u x) : s.term w m v = s.term w m u := by
  rw [term, term, condition_congr h, bodyDenote_congr h]

/-- The denotation depends on the free symbols. -/
theorem denote_congr (h : ∀ x ∈ s.freeVars, v x = u x) : s.denote w m v = s.denote w m u :=
  World.total_agree s.vars (fun _ _ h' => term_congr h')
    fun x hx hb => h x (mem_freeVars.mpr ⟨hx, hb⟩)

/-- Whether a summand is decided depends on the free symbols. -/
theorem Decided.congr (hs : s.Decided w v) (h : ∀ x ∈ s.freeVars, v x = u x) :
    s.Decided w u := by
  intro u' hu'
  rw [condition_congr (u := fun x => if x ∈ s.bound then u' x else v x)]
  · exact hs _ (hu'.transfer v)
  · intro x hx
    split
    · rfl
    · rename_i hb
      rw [hu'.keeps x hb, h x (mem_freeVars.mpr ⟨hx, hb⟩)]

end Summand

end RelationalLP
