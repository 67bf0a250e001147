import RelationalLP.Interchange.Datum
import RelationalLP.Number.Numeral

/-! # Reading data

Reads one JSON value. The functions take characters from the front and return the rest; their first
argument bounds the depth of calls, and `Datum.parse?` gives more than any text needs. -/

namespace RelationalLP

namespace Datum

variable {K : Type}

/-- Drops the blanks between tokens. -/
def skipBlanks (cs : List Char) : List Char :=
  cs.dropWhile fun c => c = ' ' || c = '\t' || c = '\r' || c = '\n'

/-- The value of a hexadecimal digit. -/
def hexValue? (c : Char) : Option Nat :=
  if c.isDigit then some (c.toNat - '0'.toNat)
  else if 'a' ≤ c && c ≤ 'f' then some (c.toNat - 'a'.toNat + 10)
  else if 'A' ≤ c && c ≤ 'F' then some (c.toNat - 'A'.toNat + 10)
  else none

/-- The value of four hexadecimal digits. -/
def hexUnit? (a b c d : Char) : Option Nat :=
  match hexValue? a, hexValue? b, hexValue? c, hexValue? d with
  | some w, some x, some y, some z => some (((w * 16 + x) * 16 + y) * 16 + z)
  | _, _, _, _ => none

/-- The character of an escape letter. -/
def escaped? (c : Char) : Option Char :=
  match c with
  | '"' => some '"'
  | '\\' => some '\\'
  | '/' => some '/'
  | 'b' => some '\x08'
  | 'f' => some '\x0c'
  | 'n' => some '\n'
  | 'r' => some '\r'
  | 't' => some '\t'
  | _ => none

/-- Puts a character in front of a text that may be garbled. -/
def consChar (c : Char) : Option (List Char) × List Char → Option (List Char) × List Char
  | (body, rest) => (body.map (c :: ·), rest)

/-- The rest of a quoted text and what follows it. The text is none when an escape in it stands for
half a character. -/
def quotedBody? : List Char → Option (Option (List Char) × List Char)
  | [] => none
  | '"' :: rest => some (some [], rest)
  | '\\' :: 'u' :: a :: b :: c :: d :: '\\' :: 'u' :: e :: f :: g :: h :: rest =>
    match hexUnit? a b c d, hexUnit? e f g h with
    | some u, some v =>
      if 0xd800 ≤ u && u < 0xdc00 && 0xdc00 ≤ v && v < 0xe000 then
        -- two halves make one character beyond the first 65536
        let n := 0x10000 + (u - 0xd800) * 0x400 + (v - 0xdc00)
        (quotedBody? rest).map (consChar (Char.ofNat n))
      else
        -- the second escape is read again, for it may begin a pair itself
        match quotedBody? ('\\' :: 'u' :: e :: f :: g :: h :: rest) with
        | none => none
        | some (body, rest) =>
          some (if 0xd800 ≤ u && u < 0xe000 then none else body.map (Char.ofNat u :: ·), rest)
    | _, _ => none
  | '\\' :: 'u' :: a :: b :: c :: d :: rest =>
    match hexUnit? a b c d, quotedBody? rest with
    | some u, some (body, rest) =>
      some (if 0xd800 ≤ u && u < 0xe000 then none else body.map (Char.ofNat u :: ·), rest)
    | _, _ => none
  | '\\' :: c :: rest =>
    match escaped? c, quotedBody? rest with
    | some e, some r => some (consChar e r)
    | _, _ => none
  | c :: rest =>
    if c.toNat < 32 || c = '\\' then none else (quotedBody? rest).map (consChar c)

/-- Puts a field in front of others; a garbled name spoils them all. -/
def consField (name : Option (List Char)) (d : Datum K) (fields : Option (List (String × Datum K))) :
    Option (List (String × Datum K)) :=
  match name, fields with
  | some cs, some fs => some ((String.ofList cs, d) :: fs)
  | _, _ => none

/-- The number at the front of a text: an optional minus, digits without a leading zero, a fraction,
an exponent. A number without fraction and exponent is an integer, except the negated zero and what
does not fit 64 bits. -/
def takeNumber? [Scalar K] (cs : List Char) : Option (Datum K × List Char) :=
  let (negative, body) := match cs with
    | '-' :: rest => (true, rest)
    | _ => (false, cs)
  let whole := body.takeWhile Char.isDigit
  let rest := body.dropWhile Char.isDigit
  let (fraction, rest) : Option (List Char) × List Char := match rest with
    | '.' :: tail => (some (tail.takeWhile Char.isDigit), tail.dropWhile Char.isDigit)
    | _ => (none, rest)
  let (power, rest) : Option (Bool × List Char) × List Char := match rest with
    | c :: tail =>
      if c = 'e' || c = 'E' then
        let (down, digits) := Numeral.sign tail
        (some (down, digits.takeWhile Char.isDigit), digits.dropWhile Char.isDigit)
      else (none, rest)
    | [] => (none, rest)
  if whole.isEmpty || (whole.length > 1 && whole.head? = some '0') then none
  else if fraction.any List.isEmpty || power.any (·.2.isEmpty) then none
  else
    let n : Int := if negative then -(Numeral.value whole : Int) else Numeral.value whole
    let fits := Numeral.leastInteger ≤ n && n < 0x10000000000000000 && !(negative && n = 0)
    if fraction.isNone && power.isNone && fits then some (integer n, rest)
    else
      -- all digits make one whole number, and the fraction lowers its power of ten
      let digits := fraction.getD []
      let e : Int := match power with
        | none => 0
        | some (down, ds) => if down then -(Numeral.value ds : Int) else Numeral.value ds
      some (real (Numeral.scaled negative (whole ++ digits) (e - digits.length)), rest)

/-- The front of a text, when it starts with the given word. -/
def takeWord? (word : String) (d : Datum K) (cs : List Char) : Option (Datum K × List Char) :=
  if word.toList.isPrefixOf cs then some (d, cs.drop word.length) else none

mutual

/-- A value; blanks may stand in front of it. -/
def value? [Scalar K] : Nat → List Char → Option (Datum K × List Char)
  | 0, _ => none
  | depth + 1, cs =>
    match skipBlanks cs with
    | '"' :: rest =>
      match quotedBody? rest with
      | some (some body, rest) => some (text (String.ofList body), rest)
      | some (none, rest) => some (garbled, rest)
      | none => none
    | '[' :: rest =>
      match skipBlanks rest with
      | ']' :: rest => some (list [], rest)
      | rest => (items? depth rest).map fun (items, rest) => (list items, rest)
    | '\x7b' :: rest =>
      match skipBlanks rest with
      | '\x7d' :: rest => some (record [], rest)
      | rest => (fields? depth rest).map fun (fields, rest) => (fields.elim garbled record, rest)
    | 'n' :: rest => takeWord? "ull" null rest
    | 't' :: rest => takeWord? "rue" (bool true) rest
    | 'f' :: rest => takeWord? "alse" (bool false) rest
    | rest => takeNumber? rest

/-- The items of a list up to its closing bracket. -/
def items? [Scalar K] : Nat → List Char → Option (List (Datum K) × List Char)
  | 0, _ => none
  | depth + 1, cs =>
    match value? depth cs with
    | none => none
    | some (d, rest) =>
      match skipBlanks rest with
      | ']' :: rest => some ([d], rest)
      | ',' :: rest => (items? depth rest).map fun (ds, rest) => (d :: ds, rest)
      | _ => none

/-- The fields of a record up to its closing brace. They are none when a name is garbled. -/
def fields? [Scalar K] : Nat → List Char → Option (Option (List (String × Datum K)) × List Char)
  | 0, _ => none
  | depth + 1, cs =>
    match skipBlanks cs with
    | '"' :: rest =>
      match quotedBody? rest with
      | some (name, rest) =>
        match skipBlanks rest with
        | ':' :: rest =>
          match value? depth rest with
          | none => none
          | some (d, rest) =>
            match skipBlanks rest with
            | '\x7d' :: rest => some (consField name d (some []), rest)
            | ',' :: rest =>
              (fields? depth rest).map fun (fields, rest) => (consField name d fields, rest)
            | _ => none
        | _ => none
      | none => none
    | _ => none

end

/-- The value that makes up a whole text. -/
def parse? [Scalar K] (input : String) : Option (Datum K) :=
  let cs := input.toList
  match value? (2 * cs.length + 2) cs with
  | some (d, rest) => if (skipBlanks rest).isEmpty then some d else none
  | none => none

end Datum

end RelationalLP
