import RelationalLP.Logic.Comparison
import RelationalLP.Number.Numeral

/-! # Tokens of formulas

The words of the text of a formula. Blanks separate words and mean nothing else. An integer beyond
64 bits is read as the real of its value. -/

namespace RelationalLP

/-- A word of a formula. -/
inductive Token (K : Type) where
  /-- An opening parenthesis. -/
  | opening
  /-- A closing parenthesis. -/
  | closing
  /-- A comma between arguments. -/
  | comma
  /-- The sign of conjunction. -/
  | amp
  /-- The sign of disjunction. -/
  | bar
  /-- The sign of negation. -/
  | tilde
  /-- A comparison operator. -/
  | op (o : CompareOp)
  /-- A word that starts with an upper-case letter. -/
  | upper (name : String)
  /-- A word that starts with a lower-case letter. -/
  | lower (name : String)
  /-- A number or a quoted text. -/
  | constant (c : Constant K)
  deriving DecidableEq

namespace Token

variable {K : Type}

/-- The characters between words. -/
def isBlank (c : Char) : Bool := c = ' ' || c = '\t' || c = '\r' || c = '\n'

/-- The characters of a word after its first letter. -/
def isWord (c : Char) : Bool := c.isAlphanum || c = '_'

/-- A numeral without its sign, and the text after it: digits, and a fraction when a point is followed
by a digit. -/
def numeral [Scalar K] (negative : Bool) (cs : List Char) : Constant K × List Char :=
  let whole := cs.takeWhile Char.isDigit
  let rest := cs.dropWhile Char.isDigit
  let integer : Constant K :=
    let n : Int := if negative then -(Numeral.value whole : Int) else Numeral.value whole
    if Numeral.leastInteger ≤ n && n ≤ Numeral.greatestInteger then .integer n
    else .real (Numeral.decimal negative whole [])
  match rest with
  | '.' :: d :: tail =>
    if d.isDigit then
      (.real (Numeral.decimal negative whole ((d :: tail).takeWhile Char.isDigit)),
        (d :: tail).dropWhile Char.isDigit)
    else (integer, rest)
  | _ => (integer, rest)

/-- A quoted text without its opening quote, and the text after the closing one. -/
def quoted? (cs : List Char) : Option (Token K × List Char) :=
  match cs.dropWhile (· ≠ '\'') with
  | _ :: rest => some (constant (.text (String.ofList (cs.takeWhile (· ≠ '\'')))), rest)
  | [] => none

/-- The word that starts with the character `c`, and the text after it. -/
def word? [Scalar K] (c : Char) (cs : List Char) : Option (Token K × List Char) :=
  match c, cs with
  | '(', _ => some (opening, cs)
  | ')', _ => some (closing, cs)
  | ',', _ => some (comma, cs)
  | '&', _ => some (amp, cs)
  | '|', _ => some (bar, cs)
  | '~', _ => some (tilde, cs)
  | '<', '=' :: rest => some (op .le, rest)
  | '<', '>' :: rest => some (op .ne, rest)
  | '<', _ => some (op .lt, cs)
  | '>', '=' :: rest => some (op .ge, rest)
  | '>', _ => some (op .gt, cs)
  | '=', _ => some (op .eq, cs)
  | '!', '=' :: rest => some (op .ne, rest)
  | '\'', _ => quoted? cs
  | '-', d :: _ =>
    if d.isDigit then
      let (n, rest) := numeral true cs
      some (constant n, rest)
    else none
  | _, _ =>
    let letters := String.ofList (c :: cs.takeWhile isWord)
    if c.isDigit then
      let (n, rest) := numeral false (c :: cs)
      some (constant n, rest)
    else if c.isUpper then some (upper letters, cs.dropWhile isWord)
    else if c.isLower then some (lower letters, cs.dropWhile isWord)
    else none

/-- The words of a text; `fuel` bounds the number of words and blanks. -/
def scanWithin [Scalar K] : Nat → List Char → Option (List (Token K))
  | _, [] => some []
  | 0, _ :: _ => none
  | fuel + 1, c :: cs =>
    if isBlank c then scanWithin fuel cs
    else
      match word? c cs with
      | none => none
      | some (t, rest) => (scanWithin fuel rest).map (t :: ·)

/-- The words of a text, or none when something in it is no word. -/
def scan? [Scalar K] (cs : List Char) : Option (List (Token K)) := scanWithin cs.length cs

/-- The term that a word stands for; lower-case words are texts. -/
def term? : Token K → Option (Term K)
  | upper name => some (.var ⟨name⟩)
  | lower name => some (.const (.text name))
  | constant c => some (.const c)
  | _ => none

end Token

end RelationalLP
