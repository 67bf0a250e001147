import RelationalLP.Logic.Formula

/-! # Simplification of formulas

`Formula.simplify` decides comparisons of constants, removes double negation, and rebuilds every
conjunction and disjunction from its simplified parts: the neutral formula disappears, the
absorbing one decides, parts of the same connective are spliced in, and repetitions are dropped. -/

namespace RelationalLP

/-- The two connectives of lists of formulas. -/
inductive Connective where
  /-- Conjunction. -/
  | conj
  /-- Disjunction. -/
  | disj
  deriving DecidableEq

namespace Connective

variable {K : Type}

/-- The formula that changes nothing. -/
def neutral : Connective → Formula K
  | conj => .truth
  | disj => .falsity

/-- The formula that decides alone. -/
def absorbing : Connective → Formula K
  | conj => .falsity
  | disj => .truth

/-- The formula of the connective with the given parts. -/
def apply (o : Connective) (fs : List (Formula K)) : Formula K :=
  match o with
  | conj => .conj fs
  | disj => .disj fs

/-- The parts of a formula of this connective; any other formula is its only part. -/
def parts : Connective → Formula K → List (Formula K)
  | conj, .conj fs => fs
  | disj, .disj fs => fs
  | _, f => [f]

/-- A formula of at least two parts; one part stands alone, and no part is the neutral formula. -/
def collapse (o : Connective) : List (Formula K) → Formula K
  | [] => o.neutral
  | [f] => f
  | fs => o.apply fs

/-- Joins simplified formulas. -/
def join [Scalar K] (o : Connective) (fs : List (Formula K)) : Formula K :=
  if o.absorbing ∈ fs then o.absorbing
  else o.collapse (distinct ((fs.filter (· ≠ o.neutral)).flatMap o.parts))

end Connective

namespace Formula

variable {K : Type}

/-- The negation of a simplified formula. -/
def opposite : Formula K → Formula K
  | truth => falsity
  | falsity => truth
  | neg f => f
  | compare c => compare c.negate
  | f => neg f

mutual

/-- The simplified formula. -/
def simplify [Scalar K] : Formula K → Formula K
  | truth => truth
  | falsity => falsity
  | atom a => atom a
  | compare c =>
    match c.evaluate .empty with
    | some true => truth
    | some false => falsity
    | none => compare c
  | neg f => f.simplify.opposite
  | conj fs => Connective.conj.join (simplifyList fs)
  | disj fs => Connective.disj.join (simplifyList fs)

/-- The simplified formulas of a list. -/
def simplifyList [Scalar K] : List (Formula K) → List (Formula K)
  | [] => []
  | f :: fs => f.simplify :: simplifyList fs

end

end Formula

end RelationalLP
