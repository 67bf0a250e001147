import RelationalLP.Logic.Binding

/-! # Terms

The arguments of atoms and comparisons: symbols and constants. -/

namespace RelationalLP

/-- An argument of an atom. -/
inductive Term (K : Type) where
  /-- A logical variable. -/
  | var (symbol : Symbol)
  /-- A constant. -/
  | const (value : Constant K)
  deriving DecidableEq, Ord, Inhabited

namespace Term

variable {K : Type}

/-- The symbol of a variable. -/
def symbol? : Term K → Option Symbol
  | var s => some s
  | const _ => none

/-- The constant, unless the term is a variable. -/
def constant? : Term K → Option (Constant K)
  | var _ => none
  | const c => some c

/-- Replaces a bound variable by its constant. -/
def substitute (b : Binding K) : Term K → Term K
  | var s => match b.get? s with
    | some c => const c
    | none => var s
  | const c => const c

/-- Renames a variable. -/
def rename (r : Renaming) : Term K → Term K
  | var s => var (r.apply s)
  | const c => const c

/-- The written form. -/
def render [Scalar K] : Term K → String
  | var s => s.name
  | const c => c.render

end Term

end RelationalLP
