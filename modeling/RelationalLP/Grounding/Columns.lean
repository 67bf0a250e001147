import RelationalLP.Collections.OrderedIndex
import RelationalLP.Logic.Atom
import RelationalLP.Number.Word

/-! # Columns of decision variables

The columns of a grounded program: one block for each decision predicate, in order of declaration, and
in it one column for each argument tuple, in order of first use. -/

namespace RelationalLP

/-- The columns of one decision predicate. -/
structure ColumnBlock (K : Type) [Scalar K] where
  /-- The predicate. -/
  template : PredicateTemplate
  /-- The column of the first tuple. -/
  offset : Nat
  /-- The argument tuples in the order of their columns. -/
  tuples : OrderedIndex (Tuple K)

/-- The columns of all decision predicates. -/
structure ColumnMap (K : Type) [Scalar K] where
  /-- The blocks in order. -/
  blocks : List (ColumnBlock K)

namespace ColumnMap

variable {K : Type} [Scalar K]

/-- The blocks of predicates with their tuples, laid out from a column on. -/
def layout (offset : Nat) :
    List (PredicateTemplate × OrderedIndex (Tuple K)) → List (ColumnBlock K)
  | [] => []
  | (template, tuples) :: rest =>
    ⟨template, offset, tuples⟩ :: layout (offset + tuples.size) rest

/-- Lays out predicates one after another. -/
def ofTemplates (templates : List (PredicateTemplate × OrderedIndex (Tuple K))) : ColumnMap K :=
  ⟨layout 0 templates⟩

/-- The number of columns. -/
def size (m : ColumnMap K) : Nat := OrderedIndex.totalSize (m.blocks.map (·.tuples))

/-- The atoms of a block; a tuple that does not fit the predicate gives none. -/
def blockAtoms (b : ColumnBlock K) : List (Atom K) :=
  b.tuples.items.filterMap fun t => (Atom.make? b.template (t.map Term.const)).toOption

/-- The decision atom of each column, in order. -/
def atoms (m : ColumnMap K) : List (Atom K) := m.blocks.flatMap blockAtoms

/-- The column of a ground decision atom. -/
def column? (m : ColumnMap K) (a : Atom K) : Option Nat :=
  match m.blocks.find? (·.template = a.template), a.ground? with
  | some b, some t => (b.tuples.get? t).map (b.offset + ·)
  | _, _ => none

/-- The map itself, when the columns of its atoms are words. -/
def numbered? (m : ColumnMap K) : Option (ColumnMap K) :=
  if m.atoms.all fun a => (m.column? a).all Word.fits then some m else none

end ColumnMap

end RelationalLP
