import RelationalLP.Collections.Fingerprint

/-! # Scalars

The numbers a relational linear program is written in. `Scalar K` lists the operations that the
library performs on numbers and no laws, so one definition runs on doubles (`Double`) and can be
read in exact arithmetic on the rationals, where equality and order are the usual ones. -/

namespace RelationalLP

/-- The operations on numbers. Order and numeric equality are those of arithmetic; `decEq` and
the `Ord` order are total and tell apart every two numbers that differ at all, such as the two
signed zeros of a floating format. -/
class Scalar (K : Type) extends
    Zero K, One K, Add K, Sub K, Mul K, Div K, Neg K, LT K, LE K, Ord K, OfScientific K,
    Fingerprint K where
  /-- Identity of numbers. -/
  decEq : DecidableEq K
  /-- The strict order is decidable. -/
  decLT : DecidableLT K
  /-- The order is decidable. -/
  decLE : DecidableLE K
  /-- Equality of values: a number that is no value at all differs even from itself. -/
  numEq : K → K → Bool
  /-- The magnitude. -/
  abs : K → K
  /-- Neither infinite nor undefined. -/
  isFinite : K → Bool
  /-- The nearest whole number; a half goes away from zero. -/
  round : K → K
  /-- The integer that this number is, if it is one. -/
  toInt? : K → Option Int
  /-- The number nearest to an integer. -/
  ofInt : Int → K
  /-- The greatest finite number of the format. -/
  greatest : K
  /-- The full written form, which shows that the number is a real. -/
  text : K → String
  /-- The plain written form, positional and without a trailing fraction. -/
  plainText : K → String

namespace Scalar

variable {K : Type} [Scalar K]

instance (priority := low) : DecidableEq K := Scalar.decEq

instance (priority := low) : DecidableLT K := Scalar.decLT

instance (priority := low) : DecidableLE K := Scalar.decLE

/-- Whether a number has the value zero. -/
def isZero (x : K) : Bool := numEq x 0

/-- The order of two values, or none when one of them is undefined. -/
def compareValue (x y : K) : Option Ordering :=
  if x < y then some .lt
  else if y < x then some .gt
  else if numEq x y then some .eq
  else none

/-- The sum of a list, from the left. An empty sum is the negated zero, which no addition
changes. -/
def sum (xs : List K) : K := xs.foldl (· + ·) (-0)

/-- The greater of a number and a bound. -/
def atLeast (bound x : K) : K := if bound < x then x else bound

end Scalar

end RelationalLP
