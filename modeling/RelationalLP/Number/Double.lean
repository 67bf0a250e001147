import RelationalLP.Number.Scalar
import RelationalLP.Number.Layout

/-! # Doubles

Numbers of the 64-bit binary format, kept as their bit pattern. Comparison is defined on the
pattern, so its laws need no facts about machine arithmetic; the four operations are those of the
machine. A result that is not a number keeps the pattern of the operand it came from, so that the
sign of such an operand stays visible in the total order. -/

namespace RelationalLP

/-- A double, given by its bits: sign, eleven exponent bits, fifty-two fraction bits. -/
structure Double where
  /-- The bit pattern. -/
  bits : UInt64
  deriving DecidableEq, Inhabited

namespace Double

/-! ### Reading the pattern -/

/-- The bit of the sign. -/
def signBit : UInt64 := 0x8000000000000000

/-- The pattern of positive infinity; greater patterns without sign are not numbers. -/
def infinityBits : UInt64 := 0x7ff0000000000000

/-- Whether the sign bit is set. -/
def isNegative (x : Double) : Bool := signBit ≤ x.bits

/-- The pattern without its sign. -/
def magnitude (x : Double) : UInt64 := x.bits &&& 0x7fffffffffffffff

/-- Whether the pattern stands for no number. -/
def isNaN (x : Double) : Bool := infinityBits < x.magnitude

/-- Whether the pattern stands for a finite number. -/
def isFinite (x : Double) : Bool := x.magnitude < infinityBits

/-- The integer `m` with `|x| = m · 2^q`, for a finite double. -/
def significand (x : Double) : Nat :=
  let fraction := (x.bits &&& 0xfffffffffffff).toNat
  if x.magnitude < 0x10000000000000 then fraction else 0x10000000000000 + fraction

/-- The exponent `q` with `|x| = m · 2^q`, for a finite double. -/
def exponent (x : Double) : Int :=
  let biased := (x.magnitude >>> 52).toNat
  (if biased = 0 then 1 else (biased : Int)) - 1075

/-- Whether the next smaller double is half as far away as the next greater one. -/
def isNarrowBelow (x : Double) : Bool :=
  x.bits &&& 0xfffffffffffff == 0 && 0x20000000000000 ≤ x.magnitude

/-! ### Order -/

/-- The strict order of values; the two zeros are equal, and what is no number is unordered. -/
def less (x y : Double) : Bool :=
  !x.isNaN && !y.isNaN &&
    match x.isNegative, y.isNegative with
    | false, false => x.magnitude < y.magnitude
    | true, true => y.magnitude < x.magnitude
    | true, false => !(x.magnitude == 0 && y.magnitude == 0)
    | false, true => false

/-- Equality of values; the two zeros are equal, and what is no number equals nothing. -/
def numEq (x y : Double) : Bool :=
  !x.isNaN && !y.isNaN && (x.bits == y.bits || (x.magnitude == 0 && y.magnitude == 0))

/-- A key that orders all patterns: negative ones downwards, then the others upwards. -/
def orderKey (x : Double) : UInt64 := if x.isNegative then ~~~x.bits else x.bits ||| signBit

instance : LT Double := ⟨fun x y => x.less y = true⟩

instance : LE Double := ⟨fun x y => (x.less y || x.numEq y) = true⟩

instance : DecidableLT Double := fun x y => inferInstanceAs (Decidable (x.less y = true))

instance : DecidableLE Double :=
  fun x y => inferInstanceAs (Decidable ((x.less y || x.numEq y) = true))

instance : Ord Double := ⟨fun x y => compare x.orderKey y.orderKey⟩

/-! ### Arithmetic -/

/-- The machine number of a pattern. -/
def toFloat (x : Double) : Float := Float.ofBits x.bits

/-- The pattern of an undefined result of defined operands. -/
def invalid : Double := ⟨0xfff8000000000000⟩

/-- The pattern of a machine number. -/
def ofFloat (f : Float) : Double := if f.isNaN then invalid else ⟨f.toBits⟩

/-- A machine operation; the first operand that is no number is the result. -/
@[inline] def combine (op : Float → Float → Float) (x y : Double) : Double :=
  if x.isNaN then x else if y.isNaN then y else ofFloat (op x.toFloat y.toFloat)

/-- The number with its sign turned, zero and what is no number included. -/
def negate (x : Double) : Double := ⟨x.bits ^^^ signBit⟩

instance : Zero Double := ⟨⟨0⟩⟩

instance : One Double := ⟨⟨0x3ff0000000000000⟩⟩

instance : Add Double := ⟨combine (· + ·)⟩

instance : Sub Double := ⟨combine (· - ·)⟩

instance : Mul Double := ⟨combine (· * ·)⟩

instance : Div Double := ⟨combine (· / ·)⟩

instance : Neg Double := ⟨negate⟩

/-- The double nearest to `m · 10^e`, or to `m · 10^(-e)` when `negative` is set. Beyond the range
of the format the power of ten is not computed. -/
def ofDecimal (m : Nat) (negative : Bool) (e : Nat) : Double :=
  if m = 0 then 0
  else if negative then if e ≤ 350 + m.log2 then ofFloat (Float.ofScientific m true e) else 0
  else if e ≤ 310 then ofFloat (Float.ofScientific m false e) else ⟨infinityBits⟩

instance : OfScientific Double := ⟨ofDecimal⟩

/-- The double nearest to a natural number. -/
def ofNat (n : Nat) : Double := ofDecimal n false 0

/-- The double nearest to an integer. -/
def ofInt (i : Int) : Double := if i < 0 then negate (ofNat i.natAbs) else ofNat i.natAbs

/-- The integer that a double is, if it is one. -/
def toInt? (x : Double) : Option Int :=
  if !x.isFinite then none
  else
    let m := x.significand
    let q := x.exponent
    let signed (n : Nat) : Int := if x.isNegative then -(n : Int) else n
    if 0 ≤ q then some (signed (m * Nat.pow 2 q.toNat))
    else
      let d := Nat.pow 2 (-q).toNat
      if m % d = 0 then some (signed (m / d)) else none

/-- The nearest whole number, with the sign of the argument; a half goes away from zero. -/
def round (x : Double) : Double :=
  if !x.isFinite || 0 ≤ x.exponent then x
  else
    -- half a unit is added to the magnitude, and the fraction is cut off
    let d := Nat.pow 2 (-x.exponent).toNat
    let n := ofNat ((2 * x.significand + d) / (2 * d))
    if x.isNegative then negate n else n

/-! ### Text -/

/-- The written form of a double in a layout. What is no number has no sign. -/
def textIn (layout : DecimalLayout) (x : Double) : String :=
  if x.isNaN then "NaN"
  else
    let body :=
      if !x.isFinite then "inf"
      else if x.magnitude = 0 then layout.zeroText
      else layout.write (Decimal.shortest x.significand x.exponent x.isNarrowBelow)
    if x.isNegative then "-" ++ body else body

instance : Scalar Double where
  of x := Fingerprint.of x.bits.toNat
  decEq := inferInstance
  decLT := inferInstance
  decLE := inferInstance
  numEq := numEq
  abs x := ⟨x.magnitude⟩
  isFinite := isFinite
  round := round
  toInt? := toInt?
  ofInt := ofInt
  greatest := ⟨infinityBits - 1⟩
  text := textIn .full
  plainText := textIn .plain

end Double

end RelationalLP
