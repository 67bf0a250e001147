import RelationalLP.Logic.Query

/-! # Numeric expressions

Expressions over constants, symbols and atoms with sums over the answers of queries. -/

namespace RelationalLP

/-- A numeric expression. -/
inductive Expr (K : Type) where
  /-- A number. -/
  | constant (value : K)
  /-- A symbol that an enclosing query binds to a number. -/
  | symbol (s : Symbol)
  /-- A numeric atom. -/
  | atom (a : Atom K)
  /-- A sum of expressions. -/
  | add (terms : List (Expr K))
  /-- A product of expressions. -/
  | mul (factors : List (Expr K))
  /-- The sum of the body over the answers of a query. -/
  | sum (query : Query K) (body : Expr K)

namespace Expr

variable {K : Type}

section Builders

variable [Scalar K]

/-- A multiple of an expression. -/
def scale (k : K) (e : Expr K) : Expr K := mul [constant k, e]

/-- The negated expression. -/
def neg (e : Expr K) : Expr K := scale (-1) e

/-- The difference of two expressions. -/
def sub (left right : Expr K) : Expr K := add [left, neg right]

end Builders

/-! ### Substitution -/

mutual

/-- Replaces symbols bound to numbers and the arguments of atoms. A symbol bound to a text stays; a
sum keeps the symbols that it binds itself. -/
def substitute [Scalar K] (b : Binding K) : Expr K → Expr K
  | constant v => constant v
  | symbol s => match (b.get? s).bind Constant.number? with
    | some v => constant v
    | none => symbol s
  | atom a => atom (a.substitute b)
  | add es => add (substituteList b es)
  | mul es => mul (substituteList b es)
  | sum q body => sum (q.substitute b) (body.substitute (b.without q.symbols))

/-- Substitution in each expression of a list. -/
def substituteList [Scalar K] (b : Binding K) : List (Expr K) → List (Expr K)
  | [] => []
  | e :: es => e.substitute b :: substituteList b es

end

/-! ### Text -/

/-- Whether the expression is put in parentheses inside a product. -/
def isAddition : Expr K → Bool
  | add _ => true
  | _ => false

mutual

/-- The written form. -/
def render [Scalar K] : Expr K → String
  | constant v => Scalar.plainText v
  | symbol s => s.name
  | atom a => a.render
  | add es => " + ".intercalate (renderTerms es)
  | mul es => " * ".intercalate (renderFactors es)
  | sum q body => "sum(" ++ q.render ++ ", " ++ body.render ++ ")"

/-- The written forms of the terms of a sum. -/
def renderTerms [Scalar K] : List (Expr K) → List String
  | [] => []
  | e :: es => e.render :: renderTerms es

/-- The written forms of the factors of a product, sums in parentheses. -/
def renderFactors [Scalar K] : List (Expr K) → List String
  | [] => []
  | e :: es => (if e.isAddition then "(" ++ e.render ++ ")" else e.render) :: renderFactors es

end

end Expr

end RelationalLP
