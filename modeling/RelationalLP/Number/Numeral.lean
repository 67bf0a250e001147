import RelationalLP.Number.Double

/-! # Numerals

Reading numbers from text. Three grammars share one notion of value: the numerals of formulas, which
are digits with an optional fraction; the numbers of settings, which also have a sign, an exponent
and the names of infinity; and the unsigned counts of settings. -/

namespace RelationalLP

namespace Numeral

/-- The value of a run of decimal digits. -/
def value (digits : List Char) : Nat := digits.foldl (fun n c => 10 * n + (c.toNat - '0'.toNat)) 0

/-- The number `digits · 10^exponent` with a sign. -/
def scaled {K : Type} [Scalar K] (negative : Bool) (digits : List Char) (exponent : Int) : K :=
  let x : K := OfScientific.ofScientific (value digits) (exponent < 0) exponent.natAbs
  if negative then -x else x

/-- The number with the given digits before and after the point. -/
def decimal {K : Type} [Scalar K] (negative : Bool) (whole fraction : List Char) : K :=
  scaled negative (whole ++ fraction) (-(fraction.length : Int))

/-- The least integer a numeral of a formula stands for. -/
def leastInteger : Int := -0x8000000000000000

/-- The greatest integer a numeral of a formula stands for. -/
def greatestInteger : Int := 0x7fffffffffffffff

/-- Splits off a leading sign; true means negative. -/
def sign : List Char → Bool × List Char
  | '-' :: cs => (true, cs)
  | '+' :: cs => (false, cs)
  | cs => (false, cs)

/-- An exponent part: the letter, a sign, and digits to the end. No text is the exponent zero. -/
def exponent? : List Char → Option Int
  | [] => some 0
  | c :: cs =>
    let (negative, digits) := sign cs
    if c.toLower = 'e' && !digits.isEmpty && digits.all Char.isDigit then
      some (if negative then -(value digits : Int) else value digits)
    else none

/-- The names of the numbers without digits. -/
def named? (name : String) : Option Double :=
  if name = "inf" || name = "infinity" then some ⟨Double.infinityBits⟩
  else if name = "nan" then some ⟨0x7ff8000000000000⟩
  else none

/-- A number of the settings: a sign, then a name in any case, or digits with a point anywhere and an
exponent. -/
def double? (text : String) : Option Double :=
  let (negative, cs) := sign text.toList
  match named? (String.ofList (cs.map Char.toLower)) with
  | some x => some (if negative then -x else x)
  | none =>
    let whole := cs.takeWhile Char.isDigit
    let rest := cs.dropWhile Char.isDigit
    let (fraction, tail) := match rest with
      | '.' :: cs => (cs.takeWhile Char.isDigit, cs.dropWhile Char.isDigit)
      | cs => ([], cs)
    if whole.isEmpty && fraction.isEmpty then none
    else (exponent? tail).map fun e => scaled negative (whole ++ fraction) (e - fraction.length)

/-- A count of the settings: digits after an optional plus, below `2^64`. -/
def count? (text : String) : Option Nat :=
  let digits := match text.toList with
    | '+' :: cs => cs
    | cs => cs
  if !digits.isEmpty && digits.all Char.isDigit && value digits < 0x10000000000000000 then some (value digits)
  else none

end Numeral

end RelationalLP
