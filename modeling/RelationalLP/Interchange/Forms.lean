import RelationalLP.Grounding.Columns
import RelationalLP.Interchange.Reader
import RelationalLP.Linear.Program
import RelationalLP.Model

/-! # Interchange forms

How constants, predicates, matrices, programs and columns are written as data, and read back. Reading
accepts a record with all its fields in any order, others being ignored, or the list of the fields in
their order; a field given twice is refused. Invariants of the values are not checked. -/

namespace RelationalLP

namespace Datum

variable {K : Type}

/-- The only occurrence of a field. -/
def field? (name : String) (fields : List (String × Datum K)) : Option (Datum K) :=
  match fields.filter (·.1 = name) with
  | [(_, d)] => some d
  | _ => none

/-- The fields of a record, or the items of a list of as many. -/
def fieldValues? (names : List String) : Datum K → Option (List (Datum K))
  | record fields => names.mapM (field? · fields)
  | list items => if items.length = names.length then some items else none
  | _ => none

/-- The items of a list. -/
def list? {α : Type} (item? : Datum K → Option α) : Datum K → Option (List α)
  | list items => items.mapM item?
  | _ => none

/-- A text. -/
def text? : Datum K → Option String
  | text s => some s
  | _ => none

/-- A truth value. -/
def bool? : Datum K → Option Bool
  | bool b => some b
  | _ => none

/-- A natural number. -/
def nat? : Datum K → Option Nat
  | integer n => if 0 ≤ n then some n.toNat else none
  | _ => none

/-- A finite number. -/
def number? [Scalar K] : Datum K → Option K
  | integer n => some (Scalar.ofInt n)
  | real x => if Scalar.isFinite x then some x else none
  | _ => none

/-- One of some words, alone or as a field without value. -/
def word? (words : List String) : Datum K → Option String
  | text s => if s ∈ words then some s else none
  | record [(s, null)] => if s ∈ words then some s else none
  | _ => none

/-- A list of numbers. -/
def ofNumbers (xs : List K) : Datum K := list (xs.map real)

/-- A natural number as data. -/
def ofNat (n : Nat) : Datum K := integer n

end Datum

namespace Constant

variable {K : Type}

/-- A constant as data: one field named for its kind. -/
def encode : Constant K → Datum K
  | integer v => .record [("Integer", .integer v)]
  | real v => .record [("Real", .real v)]
  | text s => .record [("Text", .text s)]

/-- Reads a constant. -/
def decode? [Scalar K] : Datum K → Option (Constant K)
  | .record [("Integer", .integer n)] =>
    if n ≤ Numeral.greatestInteger then some (integer n) else none
  | .record [("Real", d)] => d.number?.map real
  | .record [("Text", .text s)] => some (text s)
  | _ => none

end Constant

namespace Symbol

/-- A symbol as data. -/
def encode {K : Type} (s : Symbol) : Datum K := .record [("name", .text s.name)]

/-- Reads a symbol. -/
def decode? {K : Type} (d : Datum K) : Option Symbol :=
  match d.fieldValues? ["name"] with
  | some [name] => name.text?.map Symbol.mk
  | _ => none

end Symbol

namespace PredicateTemplate

variable {K : Type}

/-- A template as data. -/
def encode (t : PredicateTemplate) : Datum K :=
  .record [("name", .text t.name), ("arity", .ofNat t.arity),
    ("kind", .text (if t.isBoolean then "Boolean" else "Numeric")), ("decision", .bool t.decision)]

/-- Reads a template. -/
def decode? (d : Datum K) : Option PredicateTemplate :=
  match d.fieldValues? ["name", "arity", "kind", "decision"] with
  | some [name, arity, kind, decision] => do
    let name ← name.text?
    let arity ← arity.nat?
    let kind ← kind.word? ["Boolean", "Numeric"]
    let decision ← decision.bool?
    return ⟨name, arity, if kind = "Boolean" then .boolean else .numeric, decision⟩
  | _ => none

end PredicateTemplate

namespace Sense

/-- A direction as data. -/
def encode {K : Type} : Sense → Datum K
  | minimize => .text "Minimize"
  | maximize => .text "Maximize"

/-- Reads a direction. -/
def decode? {K : Type} (d : Datum K) : Option Sense :=
  (d.word? ["Minimize", "Maximize"]).map fun w => if w = "Minimize" then minimize else maximize

end Sense

namespace SparseMatrix

variable {K : Type}

/-- A matrix as data: its size and its entries as triples. -/
def encode (m : SparseMatrix K) : Datum K :=
  .record [("rows", .ofNat m.rows), ("cols", .ofNat m.cols),
    ("entries", .list (m.entries.map fun (p, v) => .list [.ofNat p.1, .ofNat p.2, .real v]))]

/-- Reads an entry. -/
def decodeEntry? [Scalar K] : Datum K → Option (Position × K)
  | .list [r, c, v] => do return ((← r.nat?, ← c.nat?), ← v.number?)
  | _ => none

/-- Reads a matrix. -/
def decode? [Scalar K] (d : Datum K) : Option (SparseMatrix K) :=
  match d.fieldValues? ["rows", "cols", "entries"] with
  | some [rows, cols, entries] => do
    return { rows := ← rows.nat?, cols := ← cols.nat?, entries := ← entries.list? decodeEntry? }
  | _ => none

end SparseMatrix

namespace LinearProgram

variable {K : Type}

/-- A program as data. -/
def encode (lp : LinearProgram K) : Datum K :=
  .record [("c", .ofNumbers lp.c), ("g", lp.g.encode), ("h", .ofNumbers lp.h), ("a", lp.a.encode),
    ("b", .ofNumbers lp.b)]

/-- Reads a program. -/
def decode? [Scalar K] (d : Datum K) : Option (LinearProgram K) :=
  match d.fieldValues? ["c", "g", "h", "a", "b"] with
  | some [c, g, h, a, b] => do
    return {
      c := ← c.list? Datum.number?, g := ← SparseMatrix.decode? g, h := ← h.list? Datum.number?
      a := ← SparseMatrix.decode? a, b := ← b.list? Datum.number? }
  | _ => none

end LinearProgram

namespace ColumnMap

variable {K : Type} [Scalar K]

/-- A block of columns as data. -/
def encodeBlock (b : ColumnBlock K) : Datum K :=
  .record [("template", b.template.encode), ("offset", .ofNat b.offset),
    ("tuples", .list (b.tuples.items.map fun t => .list (t.map Constant.encode)))]

/-- The columns of a grounded program as data. -/
def encode (m : ColumnMap K) : Datum K := .record [("blocks", .list (m.blocks.map encodeBlock))]

/-- Reads a block of columns; repeated tuples count once. -/
def decodeBlock? (d : Datum K) : Option (ColumnBlock K) :=
  match d.fieldValues? ["template", "offset", "tuples"] with
  | some [template, offset, tuples] => do
    return {
      template := ← PredicateTemplate.decode? template, offset := ← offset.nat?
      tuples := .ofList (← tuples.list? (Datum.list? Constant.decode?)) }
  | _ => none

/-- Reads the columns of a grounded program. -/
def decode? (d : Datum K) : Option (ColumnMap K) :=
  match d.fieldValues? ["blocks"] with
  | some [blocks] => (blocks.list? decodeBlock?).map ColumnMap.mk
  | _ => none

end ColumnMap

end RelationalLP
