import RelationalLP.Number.Shortest

/-! # Layout of decimals

How a decimal is written out: where positional notation ends and whether a whole number keeps a
fraction. The library writes reals in two layouts. -/

namespace RelationalLP

/-- The choices of a written form. -/
structure DecimalLayout where
  /-- Leading digits below this power of ten are written with an exponent. -/
  lowest : Option Int
  /-- Leading digits from this power of ten on are written with an exponent. -/
  highest : Option Int
  /-- Whether a whole number is followed by `.0`. -/
  keepFraction : Bool

namespace DecimalLayout

/-- The full form: positional from `0.0001` up to sixteen digits, always with a fraction or an
exponent, so that it reads as a real. -/
def full : DecimalLayout := { lowest := some (-4), highest := some 16, keepFraction := true }

/-- The plain form: always positional, whole numbers without a fraction. -/
def plain : DecimalLayout := { lowest := none, highest := none, keepFraction := false }

/-- Whether a decimal with this leading power of ten takes an exponent. -/
def usesExponent (layout : DecimalLayout) (leading : Int) : Bool :=
  layout.lowest.any (leading < ·) || layout.highest.any (· ≤ leading)

/-- The text of zero. -/
def zeroText (layout : DecimalLayout) : String := if layout.keepFraction then "0.0" else "0"

/-- A run of zeros. -/
def zeros (n : Nat) : String := String.ofList (List.replicate n '0')

/-- Digits with an exponent: one digit, the rest as a fraction, the power of ten. -/
def scientific (digits : List Char) (leading : Int) : String :=
  let mantissa := match digits with
    | [] => ""
    | [d] => String.singleton d
    | d :: rest => String.singleton d ++ "." ++ String.ofList rest
  mantissa ++ "e" ++ toString leading

/-- Digits around a decimal point. -/
def positional (layout : DecimalLayout) (digits : List Char) (point : Int) : String :=
  let whole := point.toNat
  if point ≤ 0 then "0." ++ zeros (-point).toNat ++ String.ofList digits
  else if digits.length ≤ whole then
    String.ofList digits ++ zeros (whole - digits.length)
      ++ (if layout.keepFraction then ".0" else "")
  else String.ofList (digits.take whole) ++ "." ++ String.ofList (digits.drop whole)

/-- Writes a positive decimal. -/
def write (layout : DecimalLayout) (d : Decimal) : String :=
  let digits := Nat.toDigits 10 d.digits
  let leading := d.point - 1
  if layout.usesExponent leading then scientific digits leading
  else layout.positional digits d.point

end DecimalLayout

end RelationalLP
