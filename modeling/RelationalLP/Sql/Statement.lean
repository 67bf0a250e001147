import RelationalLP.Logic.Symbol
import RelationalLP.Logic.Comparison

/-! # SQL statements

The fragment of SQL that queries are written in, as data, and its text. A statement is a union of
selections; each selects columns of a cross product of tables under a conjunction of conditions. -/

namespace RelationalLP

namespace Sql

/-- Why a query has no statement, or a statement no answer. -/
inductive RenderError where
  /-- A symbol that no positive atom binds. -/
  | unboundSymbol (symbol : String)
  /-- A coefficient with an atom or a sum in it. -/
  | unsupportedCoefficient (term : String)
  /-- A table with fewer columns than the atom has arguments; columns count from zero. -/
  | missingColumn (table : String) (index : Nat)
  /-- A lookup of an atom with variables. -/
  | notGround (atom : String)
  /-- A failure of the database, with the reason. -/
  | backend (reason : String)
  deriving DecidableEq

/-- The wording of an error. -/
def RenderError.message : RenderError → String
  | unboundSymbol symbol =>
    "Render error: symbol '" ++ symbol ++ "' is not bound by a positive atom"
  | unsupportedCoefficient term =>
    "Render error: coefficient term '" ++ term ++ "' has no SQL form"
  | missingColumn table index =>
    "Render error: table '" ++ table ++ "' has no column " ++ toString index
  | notGround atom => "Render error: fact lookup needs a ground atom, got '" ++ atom ++ "'"
  | backend reason => "SQL error: " ++ reason

variable {K : Type}

/-! ### Literals -/

/-- Writes every quote twice. -/
def doubleQuotes : List Char → List Char
  | [] => []
  | c :: cs => if c = '\'' then '\'' :: '\'' :: doubleQuotes cs else c :: doubleQuotes cs

/-- A text as a literal. -/
def quote (s : String) : String := "'" ++ String.ofList (doubleQuotes s.toList) ++ "'"

/-- A constant as a literal. -/
def literal [Scalar K] : Constant K → String
  | .integer v => toString v
  | .real v => Scalar.text v
  | .text s => quote s

/-- A comparison operator. -/
def operator : CompareOp → String
  | .ne => "<>"
  | op => op.render

/-! ### Statements -/

/-- A column of a table under an alias. -/
structure Column where
  /-- The alias of the table. -/
  label : String
  /-- The name of the column. -/
  name : String
  deriving DecidableEq

/-- A side of a comparison. -/
inductive Operand (K : Type) where
  /-- The value of a column. -/
  | column (c : Column)
  /-- A literal. -/
  | literal (c : Constant K)

/-- A table and its alias. -/
structure Source where
  /-- The name of the table. -/
  table : String
  /-- The alias in this selection. -/
  label : String

/-- A condition of a selection. -/
inductive Condition (K : Type) where
  /-- A comparison. -/
  | compare (left : Operand K) (op : CompareOp) (right : Operand K)
  /-- No row of the table has the given values in the given columns. -/
  | absent (source : Source) (values : List (Column × Operand K))

/-- A computed value. -/
inductive Quantity (K : Type) where
  /-- A number. -/
  | number (v : K)
  /-- The value of a column. -/
  | column (c : Column)
  /-- A sum. -/
  | add (terms : List (Quantity K))
  /-- A product. -/
  | mul (factors : List (Quantity K))

/-- One selection of distinct rows. -/
structure Selection (K : Type) where
  /-- The selected columns with the symbols they are named for. -/
  columns : List (Column × Symbol)
  /-- A computed value in the last place. -/
  quantity : Option (Quantity K)
  /-- The tables of the cross product. -/
  sources : List Source
  /-- The conditions, all of which have to hold. -/
  conditions : List (Condition K)

/-- A union of selections. -/
abbrev Statement (K : Type) := List (Selection K)

/-- The lookup of one cell: the value column of the rows with the given cells. -/
structure Lookup (K : Type) where
  /-- The column that is read. -/
  column : String
  /-- The table. -/
  table : String
  /-- The columns that are given, with their values. -/
  given : List (String × Constant K)

/-! ### Text -/

/-- A column with the alias of its table. -/
def Column.write (c : Column) : String := c.label ++ "." ++ c.name

/-- A side of a comparison. -/
def Operand.write [Scalar K] : Operand K → String
  | column c => c.write
  | literal c => Sql.literal c

/-- A table with its alias. -/
def Source.write (s : Source) : String := s.table ++ " AS " ++ s.label

/-- A condition. -/
def Condition.write [Scalar K] : Condition K → String
  | compare left op right => left.write ++ " " ++ operator op ++ " " ++ right.write
  | absent source values =>
    let equations := values.map fun (c, v) => c.write ++ " = " ++ v.write
    "NOT EXISTS (SELECT 1 FROM " ++ source.write ++ " WHERE " ++ " AND ".intercalate equations ++ ")"

namespace Quantity

mutual

/-- A computed value; sums are in parentheses. -/
def write [Scalar K] : Quantity K → String
  | number v => Scalar.plainText v
  | column c => c.write
  | add terms => "(" ++ " + ".intercalate (writeAll terms) ++ ")"
  | mul factors => " * ".intercalate (writeAll factors)

/-- The parts of a sum or a product. -/
def writeAll [Scalar K] : List (Quantity K) → List String
  | [] => []
  | q :: qs => q.write :: writeAll qs

end

end Quantity

/-- One selection; without columns and value it selects the number one. -/
def Selection.write [Scalar K] (s : Selection K) : String :=
  let columns := s.columns.map fun (c, symbol) => c.write ++ " AS " ++ symbol.name
  let items := columns ++ (s.quantity.map Quantity.write).toList
  "SELECT DISTINCT " ++ ", ".intercalate (if items.isEmpty then ["1"] else items)
    ++ (if s.sources.isEmpty then "" else " FROM " ++ ", ".intercalate (s.sources.map Source.write))
    ++ (if s.conditions.isEmpty then ""
        else " WHERE " ++ " AND ".intercalate (s.conditions.map Condition.write))

/-- The text of a statement. -/
def Statement.write [Scalar K] (s : Statement K) : String :=
  " UNION ".intercalate (s.map Selection.write)

/-- The text of a lookup. -/
def Lookup.write [Scalar K] (l : Lookup K) : String :=
  let conditions := l.given.map fun (column, value) => column ++ " = " ++ literal value
  "SELECT " ++ l.column ++ " FROM " ++ l.table
    ++ (if conditions.isEmpty then "" else " WHERE " ++ " AND ".intercalate conditions)

end Sql

end RelationalLP
