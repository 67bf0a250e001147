import RelationalLP.Expr.Basic

/-! # Models

The declared relational linear program: a direction, an objective, constraints, and the decision
predicates in the order of their columns. -/

namespace RelationalLP

/-- The relation of a constraint. -/
inductive RelationKind where
  /-- Less or equal. -/
  | le
  /-- Greater or equal. -/
  | ge
  /-- Equal. -/
  | eq
  deriving DecidableEq

/-- The sign of a relation. -/
def RelationKind.render : RelationKind → String
  | le => "<="
  | ge => ">="
  | eq => "="

/-- A relation of two expressions. -/
structure Relation (K : Type) where
  /-- The left side. -/
  lhs : Expr K
  /-- The relation. -/
  kind : RelationKind
  /-- The right side. -/
  rhs : Expr K

namespace Relation

variable {K : Type}

/-- Whether the sides have to be equal. -/
def isEquality (r : Relation K) : Bool := r.kind = .eq

/-- The expression that is compared with zero: every relation reads `e <= 0` or `e = 0`. -/
def canonical [Scalar K] (r : Relation K) : Expr K :=
  match r.kind with
  | .ge => .sub r.rhs r.lhs
  | .le | .eq => .sub r.lhs r.rhs

/-- The written form. -/
def render [Scalar K] (r : Relation K) : String :=
  r.lhs.render ++ " " ++ r.kind.render ++ " " ++ r.rhs.render

end Relation

/-- One relation, or one for each answer of a query. -/
inductive Constraint (K : Type) where
  /-- One relation. -/
  | single (relation : Relation K)
  /-- A relation for each answer of the query. -/
  | forAll (query : Query K) (relation : Relation K)

namespace Constraint

variable {K : Type}

/-- The relation of a constraint. -/
def relation : Constraint K → Relation K
  | single r => r
  | forAll _ r => r

/-- The query over whose answers the relation ranges. -/
def query? : Constraint K → Option (Query K)
  | single _ => none
  | forAll q _ => some q

/-- The written form. -/
def render [Scalar K] : Constraint K → String
  | single r => r.render
  | forAll q r => "forall(" ++ q.render ++ ", " ++ r.render ++ ")"

end Constraint

/-- The direction of optimization. -/
inductive Sense where
  /-- Make the objective small. -/
  | minimize
  /-- Make the objective great. -/
  | maximize
  deriving DecidableEq, Inhabited

namespace Sense

/-- The factor that turns the objective into one to be minimized. -/
def factor {K : Type} [Scalar K] : Sense → K
  | minimize => 1
  | maximize => -1

/-- The word for a direction. -/
def render : Sense → String
  | minimize => "minimize"
  | maximize => "maximize"

end Sense

/-- A declared program. -/
structure Model (K : Type) where
  /-- The direction of optimization. -/
  sense : Sense
  /-- The objective; without one every feasible point is optimal. -/
  objective : Option (Expr K) := none
  /-- The constraints in order. -/
  constraints : List (Constraint K) := []
  /-- The decision predicates in the order of their columns. -/
  decision : List PredicateTemplate := []

/-- The place of a decision predicate in the order of declaration. -/
def Model.decisionIndex? {K : Type} (model : Model K) (t : PredicateTemplate) : Option Nat :=
  model.decision.findIdx? (· = t)

end RelationalLP
