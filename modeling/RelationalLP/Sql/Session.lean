import RelationalLP.Facts.KnowledgeBase
import RelationalLP.Sql.Draft

/-! # A database as a knowledge base

Answers queries by running their statements. The column names learnt so far are kept between
requests. -/

namespace RelationalLP

namespace Sql

variable {K : Type} {m : Type → Type} [Scalar K] [Monad m]

/-- Requests to a database, with the column names learnt so far. -/
abbrev Session (m : Type → Type) := ExceptT KbError (StateT ColumnCache m)

/-- A failure of the database or of writing a statement for it. -/
def failure (e : RenderError) : KbError := .backend e.message

/-- The making of a statement as part of a request. -/
def compile {α : Type} (x : Compile m α) : Session m α := withError failure x

/-- Runs a statement. -/
def run (execute : Executor K m) (text : String) : Session m (List (Tuple K)) :=
  ExceptT.mk (StateT.lift (withError failure (execute text)).run)

/-- The first cells of a row, as many as were asked for; a coefficient is read as a real. -/
def readRow (width : Nat) (hasCoefficient : Bool) (row : Tuple K) : Except KbError (Tuple K) :=
  if row.length < width then
    .error (.backend ("expected " ++ toString width ++ " column(s), got " ++ toString row.length))
  else
    let cells := row.take width
    if hasCoefficient then
      match cells.getLast?.bind Constant.number? with
      | some v => .ok (cells.dropLast ++ [.real v])
      | none => .error (.backend "coefficient column is not numeric")
    else .ok cells

/-- Runs the statement of a query that is neither true nor false. -/
def askDatabase (execute : Executor K m) (schema : SchemaSource m) (selectors : List Symbol)
    (f : Formula K) (coefficient : Option (Expr K)) : Session m (Answers K) := do
  match ← compile (queryText? schema selectors f coefficient) with
  | none => return []
  | some text =>
    let width := selectors.length + (if coefficient.isSome then 1 else 0)
    let rows ← run execute text
    if width = 0 then return if rows.isEmpty then [] else [[]]
    liftExcept (rows.mapM (readRow width coefficient.isSome))

/-- The value of a ground atom. -/
def askFact (execute : Executor K m) (schema : SchemaSource m) (a : Atom K) :
    Session m (Option K) := do
  if !a.isGround then throw (.notGround a.render)
  let lookup ← compile (factLookup schema a)
  match ← run execute lookup.write with
  | [] => return none
  | [row] =>
    match row.head?.bind Constant.number? with
    | some v => return some v
    | none => throw (.nonNumeric a.render)
  | rows => throw (.inconsistent a.render rows.length)

/-- The answers of a query. A false formula has none, and a true one has the empty answer; neither
reaches the database. -/
def askWith (coefficientOf : Expr K → Session m (Constant K)) (execute : Executor K m)
    (schema : SchemaSource m) (selectors : List Symbol) (f : Formula K)
    (coefficient : Option (Expr K)) : Session m (Answers K) :=
  match f.simplify with
  | .falsity => return []
  | .truth =>
    match selectors with
    | s :: _ => throw (.unboundSelector s.name)
    | [] => do
      let cell ← coefficient.mapM coefficientOf
      return [cell.toList]
  | _ => askDatabase execute schema selectors f coefficient

/-- The database as a knowledge base that answers without coefficients. -/
def plainBase (execute : Executor K m) (schema : SchemaSource m) :
    KnowledgeBase K (StateT ColumnCache m) where
  ask selectors f _ :=
    askWith (fun _ => throw (.backend "no coefficient")) execute schema selectors f none
  askFact := askFact execute schema

/-- The database as a knowledge base. -/
def knowledgeBase (execute : Executor K m) (schema : SchemaSource m) :
    KnowledgeBase K (StateT ColumnCache m) where
  ask := askWith
    (fun e => KnowledgeBase.coefficientCell (plainBase execute schema).interpretation e .empty)
    execute schema
  askFact := askFact execute schema

end Sql

end RelationalLP
