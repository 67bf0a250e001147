import RelationalLP.Number.Scalar

/-! # Data for interchange

Trees of named fields, lists and plain values, written in JSON. Field order and repeated fields stay
visible, so that a reader of records can refuse what it does not accept. -/

namespace RelationalLP

/-- A tree of plain values. -/
inductive Datum (K : Type) where
  /-- No value. -/
  | null
  /-- A truth value. -/
  | bool (value : Bool)
  /-- A number written without fraction and exponent. -/
  | integer (value : Int)
  /-- Any other number. -/
  | real (value : K)
  /-- A text. -/
  | text (value : String)
  /-- A quoted text with an escape that stands for no character, or a record with such a name. -/
  | garbled
  /-- A list. -/
  | list (items : List (Datum K))
  /-- A record. -/
  | record (fields : List (String × Datum K))
  deriving Inhabited

namespace Datum

variable {K : Type}

/-- The hexadecimal digit of a number below sixteen. -/
def hexDigit (n : Nat) : Char := Nat.digitChar n

/-- One character inside a quoted text. -/
def escape (c : Char) : String :=
  if c = '"' then "\\\"" else if c = '\\' then "\\\\"
  else if c = '\n' then "\\n" else if c = '\r' then "\\r" else if c = '\t' then "\\t"
  else if c.toNat < 32 then
    "\\u00" ++ String.singleton (hexDigit (c.toNat / 16)) ++ String.singleton (hexDigit (c.toNat % 16))
  else String.singleton c

/-- A text in double quotes. -/
def quote (s : String) : String := "\"" ++ String.join (s.toList.map escape) ++ "\""

mutual

/-- The text of a tree; a number that is not finite has none and is written as the missing value. -/
def write [Scalar K] : Datum K → String
  | null | garbled => "null"
  | bool b => if b then "true" else "false"
  | integer n => toString n
  | real x => if Scalar.isFinite x then Scalar.text x else "null"
  | text s => quote s
  | list items => "[" ++ ",".intercalate (writeItems items) ++ "]"
  | record fields => "\x7b" ++ ",".intercalate (writeFields fields) ++ "\x7d"

/-- The texts of the items of a list. -/
def writeItems [Scalar K] : List (Datum K) → List String
  | [] => []
  | d :: ds => d.write :: writeItems ds

/-- The texts of the fields of a record. -/
def writeFields [Scalar K] : List (String × Datum K) → List String
  | [] => []
  | (name, d) :: fields => (quote name ++ ":" ++ d.write) :: writeFields fields

end

/-! ### Exact reals -/

mutual

/-- The tree with every real as its text, so that no reader rounds it; one that is not finite is the
missing value. -/
def realsAsTexts [Scalar K] : Datum K → Datum K
  | real x => if Scalar.isFinite x then text (Scalar.text x) else null
  | list items => list (itemsAsTexts items)
  | record fields => record (fieldsAsTexts fields)
  | null => null
  | bool b => bool b
  | integer n => integer n
  | text s => text s
  | garbled => garbled

/-- The items of a list with every real as its text. -/
def itemsAsTexts [Scalar K] : List (Datum K) → List (Datum K)
  | [] => []
  | d :: ds => d.realsAsTexts :: itemsAsTexts ds

/-- The fields of a record with every real as its text. -/
def fieldsAsTexts [Scalar K] : List (String × Datum K) → List (String × Datum K)
  | [] => []
  | (name, d) :: fields => (name, d.realsAsTexts) :: fieldsAsTexts fields

end

end Datum

end RelationalLP
