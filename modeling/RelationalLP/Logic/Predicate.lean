import RelationalLP.Logic.Error
import RelationalLP.Number.Word

/-! # Predicate templates

The signatures of predicates: name, number of arguments, and whether the predicate is a relation, a
numeric function of facts, or a family of decision variables. -/

namespace RelationalLP

/-- Whether a predicate is a relation or a numeric function. -/
inductive PredicateKind where
  /-- A relation, used inside formulas. -/
  | boolean
  /-- A function from argument tuples to numbers. -/
  | numeric
  deriving DecidableEq, Ord, Inhabited

/-- The signature of a predicate. -/
structure PredicateTemplate where
  /-- The name of the predicate. -/
  name : String
  /-- The number of arguments. -/
  arity : Nat
  /-- Relation or numeric function. -/
  kind : PredicateKind
  /-- Whether each instance is a decision variable. -/
  decision : Bool
  deriving DecidableEq, Ord, Inhabited

namespace PredicateTemplate

/-- A relation; it needs at least one argument. -/
def boolean? (name : String) (arity : Nat) : Except ExprError PredicateTemplate :=
  if arity = 0 then .error (.emptyBoolean name) else .ok ⟨name, arity, .boolean, false⟩

/-- A numeric function whose values are facts. -/
def ofFacts (name : String) (arity : Nat) : PredicateTemplate := ⟨name, arity, .numeric, false⟩

/-- A family of decision variables; it needs at least one argument. -/
def decision? (name : String) (arity : Nat) : Except ExprError PredicateTemplate :=
  if arity = 0 then .error (.emptyDecision name) else .ok ⟨name, arity, .numeric, true⟩

/-- Whether the predicate is a relation. -/
def isBoolean (t : PredicateTemplate) : Bool := t.kind = .boolean

/-- The relation that stores the facts of a numeric function: one more column, for the value. -/
def valueRelation (t : PredicateTemplate) : PredicateTemplate :=
  ⟨t.name, t.arity + 1, .boolean, false⟩

/-- The relation that stores the facts of a numeric function, when its columns can be counted. -/
def valueRelation? (t : PredicateTemplate) : Option PredicateTemplate :=
  if Word.fits (t.arity + 1) then some t.valueRelation else none

/-- The written form: name, number of arguments, and a mark on decision variables. -/
def render (t : PredicateTemplate) : String :=
  t.name ++ "/" ++ toString t.arity ++ (if t.decision then " [decision]" else "")

end PredicateTemplate

end RelationalLP
