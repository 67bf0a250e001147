import RelationalLP.Facts.Answering
import RelationalLP.Grounding.Blocks
import RelationalLP.Grounding.Instances
import RelationalLP.Problem.Flow
import RelationalLP.Settings
import RelationalLP.Solving.Simplex
import RelationalLP.Symmetry.Lifting

/-! # The command line

Solves the flow problem of the example network with the chosen settings and prints the problem, its
status, and its solution. -/

namespace RelationalLP

/-- Grounds with a fact base by the chosen strategy. -/
def GroundingStrategy.grounder {K : Type} [Scalar K] (s : GroundingStrategy) (facts : FactBase K) :
    Grounder K := fun model =>
  match s with
  | .block => (Blocks.ground facts.knowledgeBase model).run
  | .recursive => (Instances.ground facts.knowledgeBase model).run

namespace Settings

/-- The solver with the chosen limits, behind a reduction if that is asked for. -/
def solver (s : Settings) : Solver Double :=
  let simplex := Simplex.solve { maxIterations := s.maxIterations, tolerance := s.tolerance }
  if s.lifted then simplex.lifted ColorRefinement.partition else simplex

end Settings

namespace CommandLine

/-- What a run leaves: an exit code and the printed text. -/
structure Output where
  /-- Zero for success, one for a failure, two for refused arguments. -/
  exitCode : Nat
  /-- The printed text. -/
  stdout : String

/-- The fact base of the example network. -/
def networkFacts : FactBase Double := (FactBase.empty.load Flow.network).1

/-- Solves the example with the given settings. -/
def solve (s : Settings) : Output :=
  match Flow.maxFlow (s.grounder.grounder networkFacts) s.solver "a" "g" with
  | .error _ => ⟨1, ""⟩
  | .ok problem =>
    match problem.solve with
    | (.error _, _) => ⟨1, problem.render⟩
    | (.ok status, solved) =>
      let solution := (solved.solution?.map Solution.render).getD ""
      ⟨0, problem.render ++ "status: " ++ status.render ++ "\n" ++ solution⟩

/-- Runs the program with its arguments. -/
def run (args : List String) : Output :=
  match Settings.ofArguments? args with
  | none => ⟨2, ""⟩
  | some s => solve s

end CommandLine

end RelationalLP
