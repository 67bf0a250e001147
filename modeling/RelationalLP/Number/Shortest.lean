/-! # Shortest decimals

The shortest decimal inside the interval of reals that round to one binary number. The number is
`m · 2^q`; the interval reaches half a unit to either side, or a quarter below a power of two, and
holds its ends when `m` is even. On the grid of `n` digits only the two neighbours of the number
matter, so the search tests those for `n = 1, 2, …` in exact arithmetic. -/

namespace RelationalLP

/-- The decimal `0.d₁d₂… · 10^point`, digits as one natural number. -/
structure Decimal where
  /-- The digits, read as a number; no trailing zero unless it is zero. -/
  digits : Nat
  /-- Where the decimal point stands, counted from the first digit. -/
  point : Int
  deriving DecidableEq

namespace Decimal

/-- The number of decimal digits of a natural number; zero has one. -/
def digitCount (n : Nat) : Nat := (Nat.toDigits 10 n).length

/-- Drops the trailing zeros of a digit string; `fuel` bounds their number. -/
def dropZeros : Nat → Nat → Nat
  | 0, n => n
  | fuel + 1, n => if n % 10 = 0 then dropZeros fuel (n / 10) else n

/-- The decimal `d · 10^k`. -/
def ofGrid (d : Nat) (k : Int) : Decimal :=
  { digits := dropZeros (digitCount d) d, point := digitCount d + k }

/-- The place of the decimal point of the quotient `num / den`: the exponent `p` with
`10^(p-1) ≤ num / den < 10^p`. -/
def pointOf (num den : Nat) : Int :=
  if den ≤ num then digitCount (num / den)
  else
    -- below one, the reciprocal has as many digits as zeros precede the first digit, give or take one
    let s := digitCount (den / num)
    if den ≤ num * Nat.pow 10 (s - 1) then 2 - (s : Int) else 1 - (s : Int)

/-- A fraction with the interval of its neighbours: `low / den ≤ num / den ≤ high / den`. -/
structure Target where
  /-- Numerator of the lower end. -/
  low : Nat
  /-- Numerator of the number. -/
  num : Nat
  /-- Numerator of the upper end. -/
  high : Nat
  /-- The common denominator. -/
  den : Nat
  /-- Whether the ends belong to the interval. -/
  closed : Bool

namespace Target

/-- Whether the fraction with numerator `n` lies in the interval. -/
def holds (t : Target) (n : Nat) : Bool :=
  if t.closed then t.low ≤ n && n ≤ t.high else t.low < n && n < t.high

/-- The target with all numerators and the denominator read in units of `10^k`. -/
def scale (t : Target) (k : Int) : Target :=
  if 0 ≤ k then { t with den := t.den * Nat.pow 10 k.toNat }
  else
    let f := Nat.pow 10 (-k).toNat
    { t with low := t.low * f, num := t.num * f, high := t.high * f }

/-- The nearer of the two multiples of the unit beside the number, when it lies in the interval;
a tie goes up. -/
def onGrid? (t : Target) : Option Nat :=
  let d := t.num / t.den
  let r := t.num % t.den
  match t.holds (d * t.den), t.holds ((d + 1) * t.den) with
  | true, true => some (if 2 * r < t.den then d else d + 1)
  | true, false => some d
  | false, true => some (d + 1)
  | false, false => none

/-- The first grid with a hit, from `n` digits on; `fuel` counts the grids left. -/
def search (t : Target) (point : Int) : Nat → Nat → Decimal
  | 0, n =>
    -- no grid had a hit: cut off after the last one
    let k := point - n
    ofGrid ((t.scale k).num / (t.scale k).den) k
  | fuel + 1, n =>
    let k := point - n
    match (t.scale k).onGrid? with
    | some d => ofGrid d k
    | none => search t point fuel (n + 1)

end Target

/-- The interval of the reals that round to `m · 2^q`; `narrow` says that the lower neighbour is
half as far as the upper one. -/
def target (m : Nat) (q : Int) (narrow : Bool) : Target :=
  -- in quarters of the last place, so that both half gaps are whole
  let up := Nat.pow 2 (q - 2).toNat
  { low := (4 * m - if narrow then 1 else 2) * up
    num := 4 * m * up
    high := (4 * m + 2) * up
    den := Nat.pow 2 (2 - q).toNat
    closed := m % 2 = 0 }

/-- The shortest decimal that rounds to `m · 2^q`, and of those the nearest. Seventeen digits
always suffice for a binary number of 53 bits. -/
def shortest (m : Nat) (q : Int) (narrow : Bool) : Decimal :=
  let t := target m q narrow
  t.search (pointOf t.num t.den) 17 1

end Decimal

end RelationalLP
