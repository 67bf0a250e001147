import RelationalLP.Expr.Normalize
import RelationalLP.Grounding.Grounder

/-! # Grounding by instances

Every answer of a constraint's query gives one instance of its relation, equal instances included. Each
instance is normalized, its sums are expanded by asking their queries, and other numeric atoms are
looked up one by one. -/

namespace RelationalLP

namespace Instances

variable {K : Type} {m : Type → Type} [Scalar K] [Monad m]

/-- The value of a factor under a binding. -/
def factorValue (kb : KnowledgeBase K m) (b : Binding K) : Factor K → GroundM K m K
  | .symbol s =>
    match (b.get? s).bind Constant.number? with
    | some v => pure v
    | none => throw (.resolution ("symbol '" ++ s.name ++ "'"))
  | .atom a => do
    let ground := a.substitute b
    if !ground.isGround then throw (.resolution ("unbound fact '" ++ ground.render ++ "'"))
    match ← GroundM.request (kb.askFact ground) with
    | some v => pure v
    | none => throw (.undefinedFact ground.render)

/-- Adds a summand under a binding to a row. -/
def accumulate (kb : KnowledgeBase K m) (s : Summand K) (row : GroundRow K) (b : Binding K) :
    GroundM K m (GroundRow K) := do
  let v ← s.plainFactors.foldlM (fun v f => return v * (← factorValue kb b f)) s.coefficient
  match s.decision? with
  | some a => return row.add (← GroundM.column a b) v
  | none => return row.addConstant v

/-- The bindings over which a summand is added up. -/
def summandBindings (kb : KnowledgeBase K m) (s : Summand K) : GroundM K m (List (Binding K)) :=
  match s.query with
  | none => pure [.empty]
  | some q => do
    let answers ← GroundM.request (kb.ask q.symbols q.formula none)
    return answers.map (Binding.ofAnswer q.symbols)

/-- The row of an expression without free symbols. -/
def affine (kb : KnowledgeBase K m) (e : Expr K) : GroundM K m (GroundRow K) := do
  (← GroundM.expression e.summands).foldlM (fun row s => do
    (← summandBindings kb s).foldlM (accumulate kb s) row) .empty

/-- The bindings of the instances of a constraint. -/
def bindings (kb : KnowledgeBase K m) (c : Constraint K) : GroundM K m (List (Binding K)) :=
  match c.query? with
  | none => pure [.empty]
  | some q => do
    let answers ← GroundM.request (kb.ask q.symbols q.formula none)
    return answers.map (Binding.ofAnswer q.symbols)

/-- Grounds a constraint. -/
def groundConstraint (kb : KnowledgeBase K m) (c : Constraint K) : GroundM K m Unit := do
  (← bindings kb c).forM fun b => do
    let row ← affine kb (c.relation.canonical.substitute b)
    let _ ← GroundM.pushRow c row

/-- Grounds the objective. -/
def groundObjective (kb : KnowledgeBase K m) (e : Expr K) : GroundM K m Unit := do
  let row ← affine kb e
  row.entries.forM fun (key, v) => GroundM.addObjective key v

/-- Grounds a model. -/
def ground (kb : KnowledgeBase K m) (model : Model K) : ExceptT GroundError m (Grounded K) :=
  GroundM.assemble model do
    model.objective.forM (groundObjective kb)
    model.constraints.forM (groundConstraint kb)

end Instances

end RelationalLP
