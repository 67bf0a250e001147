import RelationalLP.Grounding.Coefficient
import RelationalLP.Grounding.Grounder

/-! # Grounding by blocks

One bulk query for each summand of a constraint. Rows are told apart by the values of the constraint's
own symbols, and entries of one row and column are added up. A summand with numeric facts must get
exactly one value for each answer of its query without these facts. -/

namespace RelationalLP

namespace Blocks

variable {K : Type} {m : Type → Type} [Scalar K] [Monad m]

/-- An answer without its last cell, and the number in that cell. -/
def splitAnswer (coefficient : Expr K) (answer : Tuple K) : Except GroundError (Tuple K × K) :=
  match answer.getLast?.bind Constant.number? with
  | some v => .ok (answer.dropLast, v)
  | none => .error (.resolution ("coefficient " ++ coefficient.render))

/-- The first tuple that was seen before it is reached. -/
def repeated? : OrderedIndex (Tuple K) → List (Tuple K) → Option (Tuple K)
  | _, [] => none
  | seen, t :: rest => if (seen.get? t).isSome then some t else repeated? (seen.insert t) rest

/-- Checks that every answer without the numeric facts has exactly one value. -/
def checkResolved (kb : KnowledgeBase K m) (outer : Query K) (s : SplitSummand K)
    (rows : List (Tuple K × K)) : GroundM K m Unit := do
  match repeated? .empty (rows.map Prod.fst) with
  | some key =>
    throw (.resolution ("coefficient " ++ s.coefficient.render ++ " at " ++ key.render
      ++ " has more than one value"))
  | none => pure ()
  -- the query without value atoms counts the rows that should have a value
  let base := outer.conjoin s.base
  let expected := (← GroundM.request (kb.ask base.symbols base.formula none)).length
  if expected ≠ rows.length then
    throw (.resolution ("coefficient " ++ s.coefficient.render ++ ": "
      ++ toString (expected - rows.length) ++ " of " ++ toString expected
      ++ " row(s) have no value"))

/-- The bound symbols of a summand under an outer query, and its answers with their values. -/
def rows (kb : KnowledgeBase K m) (outer : Query K) (s : SplitSummand K) :
    GroundM K m (List Symbol × List (Tuple K × K)) := do
  let query := outer.conjoin s.query
  let answers ← GroundM.request (kb.ask query.symbols query.formula (some s.coefficient))
  let rows ← liftExcept (answers.mapM (splitAnswer s.coefficient))
  if 0 < s.valueAtoms then checkResolved kb outer s rows
  return (query.symbols, rows)

/-- The rows of one constraint, numbered by the values of its symbols. -/
structure Block (K : Type) [Scalar K] where
  /-- The values of the constraint's symbols in each row. -/
  keys : OrderedIndex (Tuple K)
  /-- The rows. -/
  rows : List (GroundRow K)

namespace Block

/-- The block without rows. -/
def empty : Block K := ⟨.empty, []⟩

/-- Changes the row of a key; a new key starts from the row of zeros. -/
def update (b : Block K) (key : Tuple K) (f : GroundRow K → GroundRow K) : Block K :=
  let keys := b.keys.insert key
  let rows := if keys.size = b.keys.size then b.rows else b.rows ++ [.empty]
  ⟨keys, rows.modify (keys.numberOf key) f⟩

end Block

/-- Adds one answer of a summand to a block. -/
def addAnswer (width : Nat) (s : SplitSummand K) (symbols : List Symbol) (b : Block K)
    (row : Tuple K × K) : GroundM K m (Block K) := do
  let key := row.1.take width
  match s.decision with
  | some a =>
    let column ← GroundM.column a (.ofAnswer symbols row.1)
    return b.update key (·.add column row.2)
  | none => return b.update key (·.addConstant row.2)

/-- Adds one summand to the block of a constraint with the given query. The first component numbers the
value symbols. -/
def addSummand (kb : KnowledgeBase K m) (outer : Query K) (state : Nat × Block K) (s : Summand K) :
    GroundM K m (Nat × Block K) := do
  let scope := outer.symbols ++ outer.formula.vars
  let (split, next) := SplitSummand.ofSummand state.1 (s.renameApart scope)
  let (symbols, answers) ← rows kb outer split
  let block ← answers.foldlM (addAnswer outer.symbols.length split symbols) state.2
  return (next, block)

/-- Grounds a constraint; value symbols are numbered from `next` on. -/
def groundConstraint (kb : KnowledgeBase K m) (next : Nat) (c : Constraint K) : GroundM K m Nat := do
  let outer := c.query?.getD .always
  let summands ← GroundM.expression c.relation.canonical.summands
  let (next, block) ← summands.foldlM (addSummand kb outer) (next, Block.empty)
  block.rows.forM fun row => do
    let _ ← GroundM.pushRow c row
  return next

/-- Adds one summand to the objective; a constant term has to have values but leaves no trace. -/
def addObjectiveSummand (kb : KnowledgeBase K m) (next : Nat) (s : Summand K) : GroundM K m Nat := do
  let (split, next) := SplitSummand.ofSummand next s
  let (symbols, answers) ← rows kb .always split
  match split.decision with
  | none => pure ()
  | some a => answers.forM fun (answer, v) => do
    GroundM.addObjective (← GroundM.column a (.ofAnswer symbols answer)) v
  return next

/-- Grounds the objective. -/
def groundObjective (kb : KnowledgeBase K m) (next : Nat) (e : Expr K) : GroundM K m Nat := do
  (← GroundM.expression e.summands).foldlM (addObjectiveSummand kb) next

/-- Grounds a model. -/
def ground (kb : KnowledgeBase K m) (model : Model K) : ExceptT GroundError m (Grounded K) :=
  GroundM.assemble model do
    -- the numbers of value symbols go on from the objective to the constraints
    let next ← match model.objective with
      | some e => groundObjective kb 0 e
      | none => pure 0
    let _ ← model.constraints.foldlM (groundConstraint kb) next

end Blocks

end RelationalLP
