import RelationalLP.Expr.Basic
import RelationalLP.Logic.Dnf
import RelationalLP.Sql.Schema

/-! # Drafts of statements

How a query becomes a statement. Each conjunction of a normal form becomes one selection: positive
atoms are the tables of the cross product, and a symbol is the first column it stands in. Its other
columns are equated to that one, constant arguments are conditions, comparisons compare these
columns, and a negated atom forbids a matching row. -/

namespace RelationalLP

namespace Sql

variable {K : Type} {m : Type → Type}

/-- What a conjunction asks for, with the columns of its atoms looked up. -/
structure Draft (K : Type) where
  /-- The tables of the positive atoms. -/
  sources : List Source := []
  /-- The columns of the positive atoms with their arguments, in order. -/
  cells : List (Column × Term K) := []
  /-- The comparisons. -/
  comparisons : List (Comparison K) := []
  /-- The negated atoms: their tables, and their columns with their arguments. -/
  absences : List (Source × List (Column × Term K)) := []

namespace Draft

/-- The columns of the arguments of an atom under an alias. -/
def atomCells [Monad m] (schema : SchemaSource m) (label : String) (a : Atom K) :
    Compile m (List (Column × Term K)) :=
  a.arguments.zipIdx.mapM fun (t, i) => return (⟨label, ← columnAt schema a.name i⟩, t)

/-- Adds a literal. -/
def addLiteral [Monad m] (schema : SchemaSource m) (d : Draft K) : Literal K → Compile m (Draft K)
  | .positive a => do
    let label := "a" ++ toString (d.sources.length + 1)
    let cells ← atomCells schema label a
    return { d with sources := d.sources ++ [⟨a.name, label⟩], cells := d.cells ++ cells }
  | .negative a => do
    let label := "n" ++ toString (d.absences.length + 1)
    let cells ← atomCells schema label a
    return { d with absences := d.absences ++ [(⟨a.name, label⟩, cells)] }
  | .compare c => return { d with comparisons := d.comparisons ++ [c] }

/-- The draft of a conjunction. -/
def ofConjunction [Monad m] (schema : SchemaSource m) (conjunction : Conjunction K) :
    Compile m (Draft K) := conjunction.foldlM (addLiteral schema) {}

/-- The columns in which symbols stand, in order. -/
def symbolColumns (d : Draft K) : List (Symbol × Column) :=
  d.cells.filterMap fun (c, t) => t.symbol?.map (·, c)

/-- The column that gives a symbol its value. -/
def firstColumn (d : Draft K) (s : Symbol) : Except RenderError Column :=
  match d.symbolColumns.lookup s with
  | some c => .ok c
  | none => .error (.unboundSymbol s.name)

/-- A term as a side of a comparison. -/
def operand (d : Draft K) : Term K → Except RenderError (Operand K)
  | .var s => (d.firstColumn s).map .column
  | .const c => .ok (.literal c)

/-- The equations of the columns of a symbol with its first column. -/
def symbolJoins (d : Draft K) (s : Symbol) : List (Condition K) :=
  match d.symbolColumns.filterMap fun (t, c) => if t = s then some c else none with
  | [] => []
  | first :: rest => rest.map fun c => .compare (.column first) .eq (.column c)

/-- The equations that a repeated symbol stands for, symbols in order of first appearance. -/
def joins (d : Draft K) : List (Condition K) :=
  (distinct (d.symbolColumns.map Prod.fst)).flatMap d.symbolJoins

/-- The equations that constant arguments stand for. -/
def constantConditions (d : Draft K) : List (Condition K) :=
  d.cells.filterMap fun (c, t) =>
    t.constant?.map fun v => .compare (.column c) .eq (.literal v)

/-- The condition of a comparison. -/
def comparison (d : Draft K) (c : Comparison K) : Except RenderError (Condition K) := do
  let left ← d.operand c.left
  let right ← d.operand c.right
  return .compare left c.op right

/-- The condition of a negated atom. -/
def absence (d : Draft K) (a : Source × List (Column × Term K)) :
    Except RenderError (Condition K) := do
  let values ← a.2.mapM fun (c, t) => return (c, ← d.operand t)
  return .absent a.1 values

mutual

/-- The computed value of a coefficient. -/
def quantity [Scalar K] (d : Draft K) : Expr K → Except RenderError (Quantity K)
  | .constant v => .ok (.number v)
  | .symbol s => (d.firstColumn s).map .column
  | .add es => (quantities d es).map .add
  | .mul es => (quantities d es).map .mul
  | .atom a => .error (.unsupportedCoefficient a.render)
  | .sum q body => .error (.unsupportedCoefficient (Expr.sum q body).render)

/-- The computed values of the parts of a sum or a product. -/
def quantities [Scalar K] (d : Draft K) : List (Expr K) → Except RenderError (List (Quantity K))
  | [] => .ok []
  | e :: es => do
    let first ← d.quantity e
    let rest ← quantities d es
    return first :: rest

end

/-- The selection of a draft. -/
def selection [Scalar K] (d : Draft K) (selectors : List Symbol) (coefficient : Option (Expr K)) :
    Except RenderError (Selection K) := do
  let columns ← selectors.mapM fun s => return (← d.firstColumn s, s)
  let quantity ← coefficient.mapM d.quantity
  let comparisons ← d.comparisons.mapM d.comparison
  let absences ← d.absences.mapM d.absence
  return { columns, quantity, sources := d.sources
           conditions := d.joins ++ d.constantConditions ++ comparisons ++ absences }

end Draft

/-- The statement of a query, or none when its formula cannot hold. -/
def statement? [Scalar K] [Monad m] (schema : SchemaSource m) (selectors : List Symbol)
    (f : Formula K) (coefficient : Option (Expr K)) : Compile m (Option (Statement K)) := do
  match f.toDnf with
  | [] => return none
  | conjunctions =>
    some <$> conjunctions.mapM fun conjunction => do
      let draft ← Draft.ofConjunction schema conjunction
      liftExcept (draft.selection selectors coefficient)

/-- The text of the statement of a query, or none when its formula cannot hold. -/
def queryText? [Scalar K] [Monad m] (schema : SchemaSource m) (selectors : List Symbol)
    (f : Formula K) (coefficient : Option (Expr K)) : Compile m (Option String) := do
  return (← statement? schema selectors f coefficient).map Statement.write

/-- The lookup of the value of a ground atom. -/
def factLookup [Scalar K] [Monad m] (schema : SchemaSource m) (a : Atom K) :
    Compile m (Lookup K) := do
  match a.ground? with
  | none => throw (.notGround a.render)
  | some args =>
    let column ← columnAt schema a.name args.length
    let given ← args.zipIdx.mapM fun (v, i) => return (← columnAt schema a.name i, v)
    return { column, table := a.name, given }

end Sql

end RelationalLP
