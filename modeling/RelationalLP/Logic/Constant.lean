import RelationalLP.Number.Scalar

/-! # Constants

The values that facts hold and symbols are bound to: integers, reals and texts. Identity tells an
integer from the real of the same value; `compareValue` compares by value. -/

namespace RelationalLP

/-- A value of the knowledge base. -/
inductive Constant (K : Type) where
  /-- An integer. -/
  | integer (value : Int)
  /-- A real. -/
  | real (value : K)
  /-- A text. -/
  | text (value : String)
  deriving DecidableEq, Ord, Inhabited

/-- The fingerprint of a constant starts with its kind. -/
instance {K : Type} [Fingerprint K] : Fingerprint (Constant K) where
  of
    | .integer v => Fingerprint.of (0, v)
    | .real v => Fingerprint.of (1, v)
    | .text s => Fingerprint.of (2, s)

/-- A row of a relation, or an answer of a query. -/
abbrev Tuple (K : Type) := List (Constant K)

namespace Constant

variable {K : Type} [Scalar K]

/-- The numeric value; texts have none. -/
def number? : Constant K → Option K
  | integer v => some (Scalar.ofInt v)
  | real v => some v
  | text _ => none

/-- Whether the constant is a number. -/
def isNumeric : Constant K → Bool
  | text _ => false
  | _ => true

/-- Comparison by value: numbers compare as numbers and texts as texts; a text and a number, or a
number without a value, do not compare. -/
def compareValue : Constant K → Constant K → Option Ordering
  | text a, text b => some (compare a b)
  | integer a, integer b => some (compare a b)
  | a, b =>
    match a.number?, b.number? with
    | some x, some y => Scalar.compareValue x y
    | _, _ => none

/-- Whether two constants are the same fact argument: identical, or numbers of one value. -/
def sameValue (a b : Constant K) : Bool := a = b || a.compareValue b == some .eq

/-- The bound of the whole reals that are stored as integers. -/
def wholeBound : K := Scalar.ofInt 9000000000000000

/-- The constant under which a cell is stored: a whole real below the bound becomes the integer of
its value. -/
def storageKey : Constant K → Constant K
  | real v =>
    match Scalar.toInt? v with
    | some n => if Scalar.abs v < wholeBound then integer n else real v
    | none => real v
  | c => c

/-- The written form: texts in single quotes, reals with a fraction or an exponent. -/
def render : Constant K → String
  | integer v => toString v
  | real v => Scalar.text v
  | text s => "'" ++ s ++ "'"

end Constant

/-- A row in parentheses. -/
def Tuple.render {K : Type} [Scalar K] (t : Tuple K) : String :=
  "(" ++ ", ".intercalate (t.map Constant.render) ++ ")"

end RelationalLP
