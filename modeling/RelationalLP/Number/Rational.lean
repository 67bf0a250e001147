import RelationalLP.Number.Scalar

/-! # Rationals as scalars

Exact arithmetic: every rational is finite, and identity, numeric equality and the total order are
those of the rationals. -/

namespace RelationalLP

/-- The nearest integer to a rational; a half goes away from zero. -/
def Rat.nearest (x : Rat) : Int :=
  if x < 0 then -((-x + 1 / 2).floor) else (x + 1 / 2).floor

/-- The written form of a rational: an integer, or a numerator over a denominator. -/
def Rat.fractionText (x : Rat) : String :=
  if x.den = 1 then toString x.num else toString x.num ++ "/" ++ toString x.den

instance : Scalar Rat where
  zero := Rat.ofInt 0
  one := Rat.ofInt 1
  compare x y := compareOfLessAndEq x y
  of x := Fingerprint.of (x.num, x.den)
  decEq := inferInstance
  decLT := inferInstance
  decLE := inferInstance
  numEq x y := decide (x = y)
  abs x := if x < 0 then -x else x
  isFinite _ := true
  round x := Rat.ofInt (Rat.nearest x)
  toInt? x := if x.den = 1 then some x.num else none
  ofInt := Rat.ofInt
  greatest := Rat.ofInt (Int.ofNat ((Nat.pow 2 53 - 1) * Nat.pow 2 971))
  text := Rat.fractionText
  plainText := Rat.fractionText

end RelationalLP
