import RelationalLP.Logic.Grammar
import RelationalLP.Problem.Basic

/-! # Maximum flow

The flow through a network with relations `node/1` and `edge/2` and capacities `cap/2`: as much as
possible along the edges into the sink, no edge beyond its capacity or below zero, and as much out of
as into every other node but the source. -/

namespace RelationalLP

namespace Flow

/-- Seven nodes `a` to `g`; the greatest flow from `a` to `g` is 130. -/
def network : String :=
  "node(a) & node(b) & node(c) & node(d) & node(e) & node(f) & node(g) & "
    ++ "edge(a, b) & edge(a, c) & edge(b, d) & edge(b, e) & edge(c, d) & "
    ++ "edge(c, f) & edge(d, e) & edge(d, f) & edge(e, g) & edge(f, g) & "
    ++ "cap(a, b, 50) & cap(a, c, 100) & cap(b, d, 40) & cap(b, e, 20) & cap(c, d, 60) & "
    ++ "cap(c, f, 20) & cap(d, e, 50) & cap(d, f, 60) & cap(e, g, 70) & cap(f, g, 70)"

variable {K : Type}

/-- The predicate of the flow along an edge. -/
def flowTemplate : PredicateTemplate := ⟨"flow", 2, .numeric, true⟩

/-- The predicate of the capacity of an edge. -/
def capTemplate : PredicateTemplate := .ofFacts "cap" 2

/-- A variable as a term. -/
def variableTerm (name : String) : Term K := .var ⟨name⟩

/-- The flow along an edge. -/
def flow (source target : Term K) : Expr K := .atom ⟨flowTemplate, [source, target]⟩

/-- The capacity of an edge. -/
def capacity (source target : Term K) : Expr K := .atom ⟨capTemplate, [source, target]⟩

variable [Scalar K]

/-- A query of a model. -/
def query (symbols : List String) (text : String) : Except ProblemError (Query K) :=
  (Query.parse (symbols.map Symbol.mk) text).mapError .model

/-- The problem of the greatest flow between two nodes, whose names are read as terms of formulas. -/
def maxFlow (grounder : Grounder K) (solver : Solver K) (source sink : String) :
    Except ProblemError (Problem K) := do
  let x := variableTerm "X"
  let y := variableTerm "Y"
  let v := variableTerm "V"
  let p ← (Problem.declare "maxflow" .maximize grounder solver).addDecision flowTemplate
  -- the objective is the flow along the edges into the sink
  let intoSink ← query ["X"] ("edge(X, " ++ sink ++ ")")
  let p ← p.setObjective (.sum intoSink (flow x (.const (.text sink))))
  -- every edge carries between zero and its capacity
  let edges ← query ["X", "Y"] "edge(X, Y)"
  let p := p.addConstraint (.forAll edges ⟨flow x y, .le, capacity x y⟩)
  let p := p.addConstraint (.forAll edges ⟨flow x y, .ge, .constant 0⟩)
  -- every other node passes on what it receives
  let inner ← query ["V"] ("node(V) & V != " ++ source ++ " & V != " ++ sink)
  let into ← query ["U"] "edge(U, V)"
  let outOf ← query ["W"] "edge(V, W)"
  return p.addConstraint (.forAll inner
    ⟨.sum into (flow (variableTerm "U") v), .eq, .sum outOf (flow v (variableTerm "W"))⟩)

end Flow

end RelationalLP
