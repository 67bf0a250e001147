import RelationalLP.Expr.Basic

/-! # Values of expressions

The reference meaning of an expression: its value under a binding, given the values of ground atoms
and the answers of queries. An interpretation may keep a state in the monad `m`; a plain one uses
`Id`. -/

namespace RelationalLP

/-- Distinct answer tuples in the order in which they are found. No tuple means that the query fails;
one empty tuple means that it holds without binding anything. -/
abbrev Answers (K : Type) := List (Tuple K)

/-- Values of ground atoms and answers of queries. -/
structure Interpretation (K : Type) (m : Type → Type) where
  /-- The value of a ground numeric atom, decision variables included. -/
  value : Atom K → ExceptT ExprError m K
  /-- The distinct tuples that bind the symbols and satisfy the formula. -/
  answers : List Symbol → Formula K → ExceptT ExprError m (Answers K)

namespace Expr

variable {K : Type} {m : Type → Type}

/-- The value of a symbol under a binding. -/
def symbolValue [Scalar K] (b : Binding K) (s : Symbol) : Except ExprError K :=
  match b.get? s with
  | none => .error (.unboundSymbol s.name)
  | some c => match c.number? with
    | none => .error (.nonNumeric s.name)
    | some v => .ok v

/-- The ground atom that an atom stands for under a binding. -/
def groundAtom [Scalar K] (b : Binding K) (a : Atom K) : Except ExprError (Atom K) :=
  if a.template.isBoolean then .error (.booleanInExpression a.name)
  else match (a.substitute b).vars with
    | s :: _ => .error (.unboundSymbol s.name)
    | [] => .ok (a.substitute b)

mutual

/-- The value of an expression under a binding. -/
def evaluate [Scalar K] [Monad m] (i : Interpretation K m) (b : Binding K) :
    Expr K → ExceptT ExprError m K
  | constant v => pure v
  | symbol s => liftExcept (symbolValue b s)
  | atom a => do i.value (← liftExcept (groundAtom b a))
  | add es => evaluateSum i b 0 es
  | mul es => evaluateProduct i b 1 es
  | sum q body => do
    let query := q.substitute b
    let tuples ← i.answers query.symbols query.formula
    tuples.foldlM (fun total tuple => do
      return total + (← body.evaluate i (b.extend query.symbols tuple))) 0

/-- Adds the values of a list of expressions to a number, from the left. -/
def evaluateSum [Scalar K] [Monad m] (i : Interpretation K m) (b : Binding K) (total : K) :
    List (Expr K) → ExceptT ExprError m K
  | [] => pure total
  | e :: es => do evaluateSum i b (total + (← e.evaluate i b)) es

/-- Multiplies a number by the values of a list of expressions, from the left. -/
def evaluateProduct [Scalar K] [Monad m] (i : Interpretation K m) (b : Binding K) (total : K) :
    List (Expr K) → ExceptT ExprError m K
  | [] => pure total
  | e :: es => do evaluateProduct i b (total * (← e.evaluate i b)) es

end

end Expr

end RelationalLP
