import RelationalLP.Collections.OrderedIndex
import RelationalLP.Facts.FactBase
import RelationalLP.Facts.KnowledgeBase
import RelationalLP.Logic.Dnf

/-! # Answering queries from facts

A query is answered conjunction by conjunction. The positive atoms are joined in order, each binding
being extended by every row that matches; the other literals filter as soon as their variables are
bound, and an equality with one unbound variable binds it. -/

namespace RelationalLP

namespace FactBase

variable {K : Type} [Scalar K]

/-! ### Matching rows -/

/-- Whether a row starts with cells of the same values as the arguments. -/
def startsWith : Tuple K → Tuple K → Bool
  | [], _ => true
  | _ :: _, [] => false
  | a :: args, c :: row => c.sameValue a && startsWith args row

/-- Whether a ground atom is a row of its relation. -/
def holds (fb : FactBase K) (a : Atom K) : Bool :=
  match a.ground? with
  | none => false
  | some args => (fb.rows a.name).any fun row => startsWith args row && row.length == args.length

/-- Extends a binding so that the terms match the cells: a constant and a bound variable must have the
value of the cell, an unbound variable is bound to it. -/
def unify (b : Binding K) : List (Term K) → Tuple K → Option (Binding K)
  | .const c :: terms, cell :: row => if c.sameValue cell then unify b terms row else none
  | .var s :: terms, cell :: row =>
    match b.get? s with
    | some c => if c.sameValue cell then unify b terms row else none
    | none => unify (b.bind s cell) terms row
  | _, _ => some b

/-- All extensions of bindings by the rows that match an atom. -/
def join (fb : FactBase K) (bindings : List (Binding K)) (a : Atom K) : List (Binding K) :=
  let rows := (fb.rows a.name).filter (·.length == a.arity)
  bindings.flatMap fun b => rows.filterMap (unify b (a.substitute b).arguments)

/-! ### Filters -/

/-- Whether a literal can be decided when some symbols are bound: all its variables are, or it is an
equality one side of which is its only unbound variable. -/
def isReady (bound : List Symbol) (l : Literal K) : Bool :=
  match distinct (l.vars.filter (· ∉ bound)), l with
  | [], _ => true
  | [s], .compare c => c.op == .eq && ((c.left == .var s) != (c.right == .var s))
  | _, _ => false

/-- Keeps a binding under which a literal holds; an equality binds its unbound side. -/
def check (fb : FactBase K) (l : Literal K) (b : Binding K) : Option (Binding K) :=
  match l with
  | .positive a => if fb.holds (a.substitute b) then some b else none
  | .negative a => if fb.holds (a.substitute b) then none else some b
  | .compare c =>
    match c.left.substitute b, c.right.substitute b with
    | .const x, .const y => if Comparison.decide c.op x y then some b else none
    | .var s, .const x => some (b.bind s x)
    | .const x, .var s => some (b.bind s x)
    | .var _, .var _ => none

/-- A state of the search: the bindings found, the literals that wait, and the symbols that every
binding binds. -/
structure Search (K : Type) where
  /-- The bindings found so far. -/
  bindings : List (Binding K)
  /-- The literals that could not be decided yet. -/
  pending : List (Literal K)
  /-- The symbols bound so far. -/
  bound : List Symbol

/-- Taking out the literal that was found leaves fewer. -/
theorem length_eraseP_lt {α : Type} {p : α → Bool} {ls : List α} {l : α}
    (h : ls.find? p = some l) : (ls.eraseP p).length < ls.length := by
  have hm := List.mem_of_find?_eq_some h
  have hl : 0 < ls.length := List.length_pos_of_mem hm
  rw [List.length_eraseP_of_mem hm (List.find?_some h)]
  omega

/-- Applies the first pending literal that is ready, until none is. -/
def applyFilters (fb : FactBase K) (s : Search K) : Search K :=
  match h : s.pending.find? (isReady s.bound) with
  | none => s
  | some l =>
    have _shorter := length_eraseP_lt h
    applyFilters fb
      { bindings := s.bindings.filterMap (fb.check l)
        pending := s.pending.eraseP (isReady s.bound)
        bound := s.bound ++ l.vars }
termination_by s.pending.length
decreasing_by exact _shorter

/-- Joins one atom and applies the filters that have become ready. -/
def step (fb : FactBase K) (s : Search K) (a : Atom K) : Search K :=
  applyFilters fb { s with bindings := fb.join s.bindings a, bound := s.bound ++ a.vars }

/-- The bindings under which a conjunction holds. A literal that never becomes ready is not safe. -/
def solve (fb : FactBase K) (conjunction : Conjunction K) : Except KbError (List (Binding K)) :=
  let filters := conjunction.filter (·.positive?.isNone)
  -- an equation with a constant needs no atom, so filters have a first turn
  let start := applyFilters fb { bindings := [.empty], pending := filters, bound := [] }
  let final := (conjunction.filterMap Literal.positive?).foldl fb.step start
  match final.pending with
  | [] => .ok final.bindings
  | l :: _ => .error (.notSafe l.render)

/-! ### Answers -/

/-- The cells that selectors have under a binding. -/
def select (selectors : List Symbol) (b : Binding K) : Except KbError (Tuple K) :=
  selectors.mapM fun s =>
    match b.get? s with
    | some c => .ok c
    | none => .error (.unboundSelector s.name)

/-- The distinct rows of selected cells and further cells, over all conjunctions. -/
def collect (fb : FactBase K) (selectors : List Symbol) (f : Formula K)
    (cells : Binding K → Except KbError (Tuple K)) : Except KbError (Answers K) :=
  match selectors.find? (· ∉ f.vars) with
  | some s => .error (.unboundSelector s.name)
  | none => do
    let rows ← f.toDnf.mapM fun conjunction => do
      (← fb.solve conjunction).mapM fun b => return (← select selectors b) ++ (← cells b)
    return (OrderedIndex.ofList rows.flatten).items

/-- The answers of a formula without coefficient. -/
def answers (fb : FactBase K) (selectors : List Symbol) (f : Formula K) :
    Except KbError (Answers K) := fb.collect selectors f fun _ => .ok []

/-- The value of a ground numeric atom: the last cell of the one row that starts with its arguments. -/
def askFact (fb : FactBase K) (a : Atom K) : Except KbError (Option K) :=
  match a.ground? with
  | none => .error (.notGround a.render)
  | some args =>
    let found := (fb.rows a.name).filter fun row =>
      startsWith args row && row.length == args.length + 1
    match found with
    | [] => .ok none
    | [row] =>
      match row.getLast?.bind Constant.number? with
      | some v => .ok (some v)
      | none => .error (.nonNumeric a.render)
    | _ => .error (.inconsistent a.render found.length)

/-- The fact base as a knowledge base that answers without coefficients. -/
def plainBase (fb : FactBase K) : KnowledgeBase K Id where
  ask selectors f _ := ExceptT.mk (fb.answers selectors f)
  askFact a := ExceptT.mk (fb.askFact a)

/-- The answers of a formula, with the value of the coefficient at the end of each. -/
def ask (fb : FactBase K) (selectors : List Symbol) (f : Formula K) (coefficient : Option (Expr K)) :
    Except KbError (Answers K) :=
  match coefficient with
  | none => fb.answers selectors f
  | some e => fb.collect selectors f fun b =>
    (KnowledgeBase.coefficientCell fb.plainBase.interpretation e b).run.map ([·])

/-- The fact base as a knowledge base. -/
def knowledgeBase (fb : FactBase K) : KnowledgeBase K Id where
  ask selectors f coefficient := ExceptT.mk (fb.ask selectors f coefficient)
  askFact a := ExceptT.mk (fb.askFact a)

/-! ### Loading -/

/-- Adds a ground atom. -/
def insertAtom (fb : FactBase K) (a : Atom K) : Except KbError (FactBase K × Bool) :=
  match fb.insertAtom? a with
  | some r => .ok r
  | none => .error (.notGround a.render)

/-- Adds the facts of a text, a conjunction of ground atoms; gives the number of new rows. An atom with
variables stops the loading, and the rows before it stay. -/
def load (fb : FactBase K) (text : String) : FactBase K × Except KbError Nat :=
  match Formula.parse text >>= factsOf with
  | .error e => (fb, .error (.expression e))
  | .ok atoms =>
    match fb.insertAtoms 0 atoms with
    | (fb', .ok n) => (fb', .ok n)
    | (fb', .error a) => (fb', .error (.notGround a.render))

end FactBase

end RelationalLP
