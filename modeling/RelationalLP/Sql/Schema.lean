import RelationalLP.Sql.Statement
import RelationalLP.Text.LowerCase

/-! # Schemas

Where the names of the columns of a table come from, and the cache that asks for each table once. -/

namespace RelationalLP

namespace Sql

variable {K : Type} {m : Type → Type}

/-- Runs the text of a statement and gives its rows. -/
abbrev Executor (K : Type) (m : Type → Type) := String → ExceptT RenderError m (List (Tuple K))

/-- Gives the names of the columns of a table in order. -/
abbrev SchemaSource (m : Type → Type) := String → ExceptT RenderError m (List String)

/-- The number of columns that the positional schema names. -/
def positionalWidth : Nat := 254

/-- Names the columns of every table `c1, c2, …`. -/
def positionalSchema [Monad m] : SchemaSource m := fun _ =>
  pure ((List.range positionalWidth).map fun i => "c" ++ toString (i + 1))

/-- The text of a cell as it appears in an error. -/
def describeCell [Scalar K] : Option (Constant K) → String
  | none => "None"
  | some (.integer v) => "Some(Integer(" ++ toString v ++ "))"
  | some (.real v) => "Some(Real(" ++ Scalar.text v ++ "))"
  | some (.text s) => "Some(Text(" ++ s ++ "))"

/-- The statement that asks a database for the names of the columns of a table. -/
def columnNamesStatement (table : String) : String :=
  "SELECT column_name FROM information_schema.columns WHERE table_name = "
    ++ quote (lowercase table) ++ " ORDER BY ordinal_position ASC"

/-- The column name in a row of the answer. -/
def columnName [Scalar K] (table : String) (row : Tuple K) : Except RenderError String :=
  match row.head? with
  | some (.text name) => .ok name
  | other => .error (.backend ("unexpected column name cell " ++ describeCell other
      ++ " for table '" ++ table ++ "'"))

/-- Asks the database for the names of the columns. -/
def informationSchema [Scalar K] [Monad m] (execute : Executor K m) : SchemaSource m :=
  fun table => do
    let rows ← execute (columnNamesStatement table)
    liftExcept (rows.mapM (columnName table))

/-- The column names that are known already, by table. -/
abbrev ColumnCache := List (String × List String)

/-- Computations that look up columns; what they have learnt stays when they fail. -/
abbrev Compile (m : Type → Type) := ExceptT RenderError (StateT ColumnCache m)

/-- The column names of a table, from the cache or else from the schema. -/
def columnNames [Monad m] (schema : SchemaSource m) (table : String) : Compile m (List String) := do
  match (← get).lookup table with
  | some names => pure names
  | none =>
    -- a failure ends the computation here and is not remembered
    let names ← ExceptT.mk (StateT.lift (schema table).run)
    modify ((table, names) :: ·)
    pure names

/-- The name of the column of a table at an index that counts from zero. -/
def columnAt [Monad m] (schema : SchemaSource m) (table : String) (index : Nat) :
    Compile m String := do
  match (← columnNames schema table)[index]? with
  | some name => pure name
  | none => throw (.missingColumn table index)

end Sql

end RelationalLP
