import RelationalLP.Logic.Simplify

/-! # Disjunctive normal form

A formula as a list of conjunctions of literals. The empty list is false, an empty conjunction is
true. -/

namespace RelationalLP

/-- A literal: an atom, a negated atom, or a comparison. -/
inductive Literal (K : Type) where
  /-- An atom that has to hold. -/
  | positive (a : Atom K)
  /-- An atom that must not hold. -/
  | negative (a : Atom K)
  /-- A comparison. -/
  | compare (c : Comparison K)
  deriving DecidableEq, Inhabited

namespace Literal

variable {K : Type}

/-- The variables in order of their places, with repetitions. -/
def vars : Literal K → List Symbol
  | positive a => a.vars
  | negative a => a.vars
  | compare c => c.vars

/-- The atom of a positive literal. -/
def positive? : Literal K → Option (Atom K)
  | positive a => some a
  | _ => none

/-- The written form. -/
def render [Scalar K] : Literal K → String
  | positive a => a.render
  | negative a => "~" ++ a.render
  | compare c => c.render

/-- Whether the literal holds under a binding, atoms being decided by `truthOf`. -/
def holds [Scalar K] (b : Binding K) (truthOf : Atom K → Bool) : Literal K → Bool
  | positive a => truthOf (a.substitute b)
  | negative a => !truthOf (a.substitute b)
  | compare c => c.evaluate b == some true

end Literal

/-- A conjunction of literals. -/
abbrev Conjunction (K : Type) := List (Literal K)

/-- A disjunction of conjunctions of literals. -/
abbrev Dnf (K : Type) := List (Conjunction K)

namespace Dnf

variable {K : Type}

/-- The conjunctions of one part from each side. -/
def product (left right : Dnf K) : Dnf K := left.flatMap fun l => right.map (l ++ ·)

/-- The conjunction of a list of normal forms. -/
def productAll (parts : List (Dnf K)) : Dnf K := parts.foldl product [[]]

end Dnf

namespace Formula

variable {K : Type}

mutual

/-- The normal form of a formula, or of its negation when `negated` is set. -/
def dnf (negated : Bool) : Formula K → Dnf K
  | truth => if negated then [] else [[]]
  | falsity => if negated then [[]] else []
  | atom a => [[if negated then .negative a else .positive a]]
  | compare c => [[.compare (if negated then c.negate else c)]]
  | neg f => f.dnf (!negated)
  | conj fs => if negated then (dnfList negated fs).flatten else Dnf.productAll (dnfList negated fs)
  | disj fs => if negated then Dnf.productAll (dnfList negated fs) else (dnfList negated fs).flatten

/-- The normal forms of a list of formulas. -/
def dnfList (negated : Bool) : List (Formula K) → List (Dnf K)
  | [] => []
  | f :: fs => f.dnf negated :: dnfList negated fs

end

/-- The disjunctive normal form of the simplified formula. -/
def toDnf [Scalar K] (f : Formula K) : Dnf K := f.simplify.dnf false

end Formula

end RelationalLP
