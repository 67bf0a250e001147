import RelationalLP.Logic.Term
import RelationalLP.Logic.Predicate

/-! # Atoms

A predicate applied to arguments. -/

namespace RelationalLP

/-- A predicate applied to arguments. -/
structure Atom (K : Type) where
  /-- The signature of the predicate. -/
  template : PredicateTemplate
  /-- The arguments. -/
  arguments : List (Term K)
  deriving DecidableEq, Ord, Inhabited

namespace Atom

variable {K : Type}

/-- Applies a predicate to as many arguments as it takes. -/
def make? (template : PredicateTemplate) (arguments : List (Term K)) :
    Except ExprError (Atom K) :=
  if arguments.length = template.arity then .ok ⟨template, arguments⟩
  else .error (.arityMismatch template.name template.arity arguments.length)

/-- The name of the predicate. -/
def name (a : Atom K) : String := a.template.name

/-- The number of arguments. -/
def arity (a : Atom K) : Nat := a.arguments.length

/-- Whether the atom is a decision variable. -/
def isDecision (a : Atom K) : Bool := a.template.decision

/-- The variables in order of their places, with repetitions. -/
def vars (a : Atom K) : List Symbol := a.arguments.filterMap Term.symbol?

/-- The argument tuple, when no argument is a variable. -/
def ground? (a : Atom K) : Option (Tuple K) := a.arguments.mapM Term.constant?

/-- Whether no argument is a variable. -/
def isGround (a : Atom K) : Bool := a.arguments.all (·.symbol?.isNone)

/-- Replaces bound variables by their constants. -/
def substitute (b : Binding K) (a : Atom K) : Atom K :=
  { a with arguments := a.arguments.map (Term.substitute b) }

/-- Renames the variables. -/
def rename (r : Renaming) (a : Atom K) : Atom K :=
  { a with arguments := a.arguments.map (Term.rename r) }

/-- The arguments and one more, under another predicate: `p(args)` becomes `q(args, extra)`. -/
def withExtra (a : Atom K) (template : PredicateTemplate) (extra : Term K) : Atom K :=
  ⟨template, a.arguments ++ [extra]⟩

/-- The written form, always with parentheses. -/
def render [Scalar K] (a : Atom K) : String :=
  a.name ++ "(" ++ ", ".intercalate (a.arguments.map Term.render) ++ ")"

end Atom

end RelationalLP
