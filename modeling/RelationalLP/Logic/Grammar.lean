import RelationalLP.Logic.Token
import RelationalLP.Logic.Query

/-! # The grammar of formulas

`edge(X, Y) & ~source(X) | X <= 3`: disjunctions of conjunctions of literals. A literal is a
negated literal, a comparison, an atom, a truth value, or a disjunction in parentheses; a connective
with one part is that part. Two tokens decide which of these a literal is, so no choice is ever taken
back. The functions read from the front of a list of tokens and return what is left; their first
argument bounds the depth of calls, and `Formula.ofTokens?` gives more than any text needs. -/

namespace RelationalLP

namespace Formula

variable {K : Type}

/-- The arguments of an atom up to the closing parenthesis. -/
def arguments? : List (Token K) → Option (List (Term K) × List (Token K))
  | t :: .comma :: rest =>
    match t.term?, arguments? rest with
    | some x, some (xs, rest) => some (x :: xs, rest)
    | _, _ => none
  | t :: .closing :: rest => t.term?.map fun x => ([x], rest)
  | _ => none

/-- The atom of a relation with these arguments. -/
def relationAtom (name : String) (arguments : List (Term K)) : Atom K :=
  ⟨⟨name, arguments.length, .boolean, false⟩, arguments⟩

/-- A literal without parentheses or negation. -/
def simpleLiteral? : List (Token K) → Option (Formula K × List (Token K))
  | .lower p :: .opening :: rest =>
    (arguments? rest).map fun (xs, rest) => (.atom (relationAtom p xs), rest)
  | t :: .op o :: u :: rest =>
    match t.term?, u.term? with
    | some x, some y => some (.compare ⟨x, o, y⟩, rest)
    | _, _ => none
  | .lower "true" :: rest => some (.truth, rest)
  | .lower "false" :: rest => some (.falsity, rest)
  | _ => none

/-- The formula of a connective with the given parts; one part stands alone. -/
def gather (connective : List (Formula K) → Formula K) (f : Formula K) :
    List (Formula K) → Formula K
  | [] => f
  | fs => connective (f :: fs)

mutual

/-- A disjunction. -/
def disjunction? : Nat → List (Token K) → Option (Formula K × List (Token K))
  | 0, _ => none
  | depth + 1, ts =>
    match conjunction? depth ts with
    | none => none
    | some (f, rest) => (moreDisjuncts? depth rest).map fun (fs, rest) => (gather .disj f fs, rest)

/-- The parts of a disjunction after the first. -/
def moreDisjuncts? : Nat → List (Token K) → Option (List (Formula K) × List (Token K))
  | 0, _ => none
  | depth + 1, .bar :: ts =>
    match conjunction? depth ts with
    | none => none
    | some (f, rest) => (moreDisjuncts? depth rest).map fun (fs, rest) => (f :: fs, rest)
  | _ + 1, ts => some ([], ts)

/-- A conjunction. -/
def conjunction? : Nat → List (Token K) → Option (Formula K × List (Token K))
  | 0, _ => none
  | depth + 1, ts =>
    match literal? depth ts with
    | none => none
    | some (f, rest) => (moreConjuncts? depth rest).map fun (fs, rest) => (gather .conj f fs, rest)

/-- The parts of a conjunction after the first. -/
def moreConjuncts? : Nat → List (Token K) → Option (List (Formula K) × List (Token K))
  | 0, _ => none
  | depth + 1, .amp :: ts =>
    match literal? depth ts with
    | none => none
    | some (f, rest) => (moreConjuncts? depth rest).map fun (fs, rest) => (f :: fs, rest)
  | _ + 1, ts => some ([], ts)

/-- A literal. -/
def literal? : Nat → List (Token K) → Option (Formula K × List (Token K))
  | 0, _ => none
  | depth + 1, .tilde :: ts => (literal? depth ts).map fun (f, rest) => (.neg f, rest)
  | depth + 1, .opening :: ts =>
    match disjunction? depth ts with
    | some (f, .closing :: rest) => some (f, rest)
    | _ => none
  | _ + 1, ts => simpleLiteral? ts

end

/-- The formula made of all tokens. -/
def ofTokens? (ts : List (Token K)) : Option (Formula K) :=
  -- between two tokens at most four calls are nested
  match disjunction? (4 * ts.length + 4) ts with
  | some (f, []) => some f
  | _ => none

/-- Reads the text of a formula; every atom is that of a relation. -/
def parse [Scalar K] (text : String) : Except ExprError (Formula K) :=
  match (Token.scan? text.toList).bind ofTokens? with
  | some f => .ok f
  | none => .error .malformed

end Formula

/-- The query of some symbols whose formula is given by its text. -/
def Query.parse {K : Type} [Scalar K] (symbols : List Symbol) (text : String) :
    Except ExprError (Query K) :=
  (Formula.parse text).map (Query.ofSymbols symbols)

end RelationalLP
