import RelationalLP.Logic.Grammar

/-! # Fact bases

Relations as sets of rows in the order in which they were inserted. Two rows are the same when their
cells have the same storage keys, so `5` and `5.0` are one cell. A fact `p(e₁, …, eₖ) := v` is the row
`(e₁, …, eₖ, v)` of relation `p`. -/

namespace RelationalLP

/-- A set of facts. -/
structure FactBase (K : Type) where
  /-- The rows with the names of their relations, oldest first. -/
  facts : List (String × Tuple K) := []

namespace FactBase

variable {K : Type}

/-- The fact base without facts. -/
def empty : FactBase K := {}

instance : Inhabited (FactBase K) := ⟨empty⟩

/-- The rows of a relation, oldest first. -/
def rows (fb : FactBase K) (relation : String) : List (Tuple K) :=
  fb.facts.filterMap fun (name, row) => if name = relation then some row else none

variable [Scalar K]

/-- The key under which a row is stored. -/
def rowKey (row : Tuple K) : Tuple K := row.map Constant.storageKey

/-- Whether a relation has a row with the same key. -/
def stores (fb : FactBase K) (relation : String) (row : Tuple K) : Bool :=
  (fb.rows relation).any fun r => rowKey r = rowKey row

/-- Adds a row unless it is stored; says whether it was added. -/
def insert (fb : FactBase K) (relation : String) (row : Tuple K) : FactBase K × Bool :=
  if fb.stores relation row then (fb, false) else (⟨fb.facts ++ [(relation, row)]⟩, true)

/-- Adds the fact that `relation(args)` has a value. -/
def insertValue (fb : FactBase K) (relation : String) (args : Tuple K) (value : K) :
    FactBase K × Bool := fb.insert relation (args ++ [.real value])

/-- Adds a ground atom; none when the atom has variables. -/
def insertAtom? (fb : FactBase K) (a : Atom K) : Option (FactBase K × Bool) :=
  a.ground?.map (fb.insert a.name)

/-- Adds atoms one after another, up to the first one with variables. Gives the fact base, and the
number of new rows or the atom that stopped it. -/
def insertAtoms (fb : FactBase K) (added : Nat) :
    List (Atom K) → FactBase K × Except (Atom K) Nat
  | [] => (fb, .ok added)
  | a :: rest =>
    match fb.insertAtom? a with
    | none => (fb, .error a)
    | some (fb', isNew) => insertAtoms fb' (if isNew then added + 1 else added) rest

/-- The atom that a formula is, as a fact. -/
def factOf : Formula K → Except ExprError (Atom K)
  | .atom a => .ok a
  | f => .error (.notFact f.render)

/-- The atoms of a conjunction of facts. -/
def factsOf : Formula K → Except ExprError (List (Atom K))
  | .atom a => .ok [a]
  | .conj fs => fs.mapM factOf
  | f => .error (.notFacts f.render)

end FactBase

end RelationalLP
