import RelationalLP.Logic.Term

/-! # Comparisons

Relations between the values of two terms inside a formula. -/

namespace RelationalLP

/-- A comparison operator. -/
inductive CompareOp where
  /-- Less. -/
  | lt
  /-- Less or equal. -/
  | le
  /-- Equal. -/
  | eq
  /-- Not equal. -/
  | ne
  /-- Greater or equal. -/
  | ge
  /-- Greater. -/
  | gt
  deriving DecidableEq, Ord, Inhabited

namespace CompareOp

/-- The operator of the opposite comparison. -/
def negate : CompareOp → CompareOp
  | lt => ge
  | le => gt
  | eq => ne
  | ne => eq
  | ge => lt
  | gt => le

/-- Whether the outcome of a comparison satisfies the operator. -/
def holds (op : CompareOp) (o : Ordering) : Bool :=
  match op with
  | lt => o.isLT
  | le => o.isLE
  | eq => o.isEq
  | ne => o.isNe
  | ge => o.isGE
  | gt => o.isGT

/-- The operator in formulas. -/
def render : CompareOp → String
  | lt => "<"
  | le => "<="
  | eq => "="
  | ne => "!="
  | ge => ">="
  | gt => ">"

/-- The opposite of the opposite is the operator itself. -/
@[simp] theorem negate_negate (op : CompareOp) : op.negate.negate = op := by
  cases op <;> rfl

/-- An outcome satisfies exactly one of an operator and its opposite. -/
@[simp] theorem holds_negate (op : CompareOp) (o : Ordering) :
    op.negate.holds o = !op.holds o := by
  cases op <;> cases o <;> rfl

end CompareOp

/-- A comparison of two terms. -/
structure Comparison (K : Type) where
  /-- The left side. -/
  left : Term K
  /-- The operator. -/
  op : CompareOp
  /-- The right side. -/
  right : Term K
  deriving DecidableEq, Ord, Inhabited

namespace Comparison

variable {K : Type}

/-- The opposite comparison of the same sides. -/
def negate (c : Comparison K) : Comparison K := { c with op := c.op.negate }

/-- The variables, left side first. -/
def vars (c : Comparison K) : List Symbol := [c.left, c.right].filterMap Term.symbol?

/-- Replaces bound variables by their constants. -/
def substitute (b : Binding K) (c : Comparison K) : Comparison K :=
  ⟨c.left.substitute b, c.op, c.right.substitute b⟩

/-- Renames the variables. -/
def rename (r : Renaming) (c : Comparison K) : Comparison K :=
  ⟨c.left.rename r, c.op, c.right.rename r⟩

/-- Whether two constants satisfy an operator. Constants that do not compare are unequal, and no
order holds between them. -/
def decide [Scalar K] (op : CompareOp) (a b : Constant K) : Bool :=
  match a.compareValue b with
  | some o => op.holds o
  | none => op == .ne

/-- The truth value under a binding; none while a side is a variable. -/
def evaluate [Scalar K] (b : Binding K) (c : Comparison K) : Option Bool :=
  match c.left.substitute b, c.right.substitute b with
  | .const x, .const y => some (decide c.op x y)
  | _, _ => none

/-- The written form. -/
def render [Scalar K] (c : Comparison K) : String :=
  c.left.render ++ " " ++ c.op.render ++ " " ++ c.right.render

end Comparison

end RelationalLP
