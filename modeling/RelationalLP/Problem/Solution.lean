import RelationalLP.Grounding.Columns
import RelationalLP.Number.Scalar

/-! # Solutions

The values of decision atoms at an optimal point. -/

namespace RelationalLP

/-- Decision atoms with their values, in the order of columns. -/
structure Solution (K : Type) where
  /-- The objective in the direction of the problem, without constant terms. -/
  objective : K
  /-- The values of the decision atoms. -/
  values : List (Atom K × K)

namespace Solution

variable {K : Type}

/-- Reads a point by columns. -/
def decode [Scalar K] (columns : ColumnMap K) (x : List K) (objective : K) : Solution K :=
  ⟨objective, columns.atoms.zip x⟩

/-- The value of an atom. -/
def get? [DecidableEq K] (s : Solution K) (a : Atom K) : Option K :=
  (s.values.find? (·.1 = a)).map Prod.snd

/-- The values of one decision predicate, by its name. -/
def ofPredicate (s : Solution K) (name : String) : List (Atom K × K) :=
  s.values.filter (·.1.name = name)

/-- The written form: the objective, and a line for each atom. -/
def render [Scalar K] (s : Solution K) : String :=
  "objective = " ++ Scalar.plainText s.objective ++ "\n"
    ++ String.join (s.values.map fun (a, v) =>
      "  " ++ a.render ++ " = " ++ Scalar.plainText v ++ "\n")

end Solution

end RelationalLP
