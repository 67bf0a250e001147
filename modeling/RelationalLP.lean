import RelationalLP.Collections.BinarySearch
import RelationalLP.Collections.Distinct
import RelationalLP.Collections.Fingerprint
import RelationalLP.Collections.OrderedIndex
import RelationalLP.Collections.Places
import RelationalLP.CommandLine
import RelationalLP.Expr.Basic
import RelationalLP.Expr.Evaluate
import RelationalLP.Expr.Normalize
import RelationalLP.Expr.Summand
import RelationalLP.Facts.Answering
import RelationalLP.Facts.FactBase
import RelationalLP.Facts.KnowledgeBase
import RelationalLP.Grounding.Blocks
import RelationalLP.Grounding.Coefficient
import RelationalLP.Grounding.Columns
import RelationalLP.Grounding.Context
import RelationalLP.Grounding.Error
import RelationalLP.Grounding.Grounder
import RelationalLP.Grounding.Instances
import RelationalLP.Interchange.Datum
import RelationalLP.Interchange.Forms
import RelationalLP.Interchange.Reader
import RelationalLP.Linear.Program
import RelationalLP.Linear.SparseMatrix
import RelationalLP.Linear.Tally
import RelationalLP.Logic.Atom
import RelationalLP.Logic.Binding
import RelationalLP.Logic.Comparison
import RelationalLP.Logic.Constant
import RelationalLP.Logic.Dnf
import RelationalLP.Logic.Error
import RelationalLP.Logic.Formula
import RelationalLP.Logic.Grammar
import RelationalLP.Logic.Predicate
import RelationalLP.Logic.Query
import RelationalLP.Logic.Simplify
import RelationalLP.Logic.Symbol
import RelationalLP.Logic.Term
import RelationalLP.Logic.Token
import RelationalLP.Main
import RelationalLP.Model
import RelationalLP.Number.Double
import RelationalLP.Number.Layout
import RelationalLP.Number.Numeral
import RelationalLP.Number.Rational
import RelationalLP.Number.Scalar
import RelationalLP.Number.Shortest
import RelationalLP.Number.Word
import RelationalLP.Problem.Basic
import RelationalLP.Problem.Error
import RelationalLP.Problem.Flow
import RelationalLP.Problem.Solution
import RelationalLP.Proofs.Collections.BinarySearch
import RelationalLP.Proofs.Collections.Traversal
import RelationalLP.Proofs.Expr.BoundSymbols
import RelationalLP.Proofs.Expr.Denotation
import RelationalLP.Proofs.Expr.ExactArithmetic
import RelationalLP.Proofs.Expr.Expansion
import RelationalLP.Proofs.Expr.FreeSymbols
import RelationalLP.Proofs.Expr.FreshNames
import RelationalLP.Proofs.Expr.Linearity
import RelationalLP.Proofs.Expr.MergedSymbols
import RelationalLP.Proofs.Expr.Merging
import RelationalLP.Proofs.Expr.MixedValues
import RelationalLP.Proofs.Expr.Scoping
import RelationalLP.Proofs.Expr.StableNormalForms
import RelationalLP.Proofs.Expr.SubstitutedValues
import RelationalLP.Proofs.Expr.Substitution
import RelationalLP.Proofs.Expr.ValuePreservation
import RelationalLP.Proofs.Expr.Worlds
import RelationalLP.Proofs.Facts.Answers
import RelationalLP.Proofs.Facts.ConjoinedQueries
import RelationalLP.Proofs.Facts.GenericQueries
import RelationalLP.Proofs.Facts.GuardedJoins
import RelationalLP.Proofs.Facts.JoinOrder
import RelationalLP.Proofs.Facts.Loading
import RelationalLP.Proofs.Facts.MarkedTexts
import RelationalLP.Proofs.Facts.Matching
import RelationalLP.Proofs.Facts.NegatedConditions
import RelationalLP.Proofs.Facts.PermutedConjunctions
import RelationalLP.Proofs.Facts.SafeConjunctions
import RelationalLP.Proofs.Facts.SatisfyingAssignments
import RelationalLP.Proofs.Facts.Search
import RelationalLP.Proofs.Facts.StoredRows
import RelationalLP.Proofs.Facts.Worlds
import RelationalLP.Proofs.Flow.Grounding
import RelationalLP.Proofs.Flow.LiteralNames
import RelationalLP.Proofs.Flow.ModelText
import RelationalLP.Proofs.Flow.Networks
import RelationalLP.Proofs.Flow.Optimum
import RelationalLP.Proofs.Flow.Rows
import RelationalLP.Proofs.Flow.StoredNetworks
import RelationalLP.Proofs.Grounding.Agreement
import RelationalLP.Proofs.Grounding.Assembly
import RelationalLP.Proofs.Grounding.AtomRows
import RelationalLP.Proofs.Grounding.BlockRows
import RelationalLP.Proofs.Grounding.BlockSuccess
import RelationalLP.Proofs.Grounding.BulkQueries
import RelationalLP.Proofs.Grounding.BulkRows
import RelationalLP.Proofs.Grounding.BulkSums
import RelationalLP.Proofs.Grounding.Calls
import RelationalLP.Proofs.Grounding.Choices
import RelationalLP.Proofs.Grounding.CollectedPrograms
import RelationalLP.Proofs.Grounding.DenotedInstances
import RelationalLP.Proofs.Grounding.EvaluatedInstances
import RelationalLP.Proofs.Grounding.FinishedProgram
import RelationalLP.Proofs.Grounding.Groundable
import RelationalLP.Proofs.Grounding.InstanceRows
import RelationalLP.Proofs.Grounding.Keys
import RelationalLP.Proofs.Grounding.Layout
import RelationalLP.Proofs.Grounding.ListedAnswers
import RelationalLP.Proofs.Grounding.Progress
import RelationalLP.Proofs.Grounding.Readings
import RelationalLP.Proofs.Grounding.ResolvedFacts
import RelationalLP.Proofs.Grounding.Rows
import RelationalLP.Proofs.Grounding.Runs
import RelationalLP.Proofs.Grounding.Success
import RelationalLP.Proofs.Linear.DenseMatrices
import RelationalLP.Proofs.Linear.DoubleSums
import RelationalLP.Proofs.Linear.Feasibility
import RelationalLP.Proofs.Linear.Matrix
import RelationalLP.Proofs.Linear.Tally
import RelationalLP.Proofs.Logic.Atoms
import RelationalLP.Proofs.Logic.Conjunctions
import RelationalLP.Proofs.Logic.ConstantValues
import RelationalLP.Proofs.Logic.ExactSimplification
import RelationalLP.Proofs.Logic.Kleene
import RelationalLP.Proofs.Logic.NormalForms
import RelationalLP.Proofs.Logic.Parsing
import RelationalLP.Proofs.Logic.ReducedFormulas
import RelationalLP.Proofs.Logic.Scanning
import RelationalLP.Proofs.Logic.Terms
import RelationalLP.Proofs.Logic.TruthPreservation
import RelationalLP.Proofs.Logic.Valuation
import RelationalLP.Proofs.Logic.Variables
import RelationalLP.Proofs.Logic.WrittenFormulas
import RelationalLP.Proofs.Number.DoubleValues
import RelationalLP.Proofs.Number.Doubles
import RelationalLP.Proofs.Number.Exact
import RelationalLP.Proofs.Number.HalfUnits
import RelationalLP.Proofs.Number.Infinite
import RelationalLP.Proofs.Number.NearestDoubles
import RelationalLP.Proofs.Number.PlainNumerals
import RelationalLP.Proofs.Number.ReadReals
import RelationalLP.Proofs.Number.RelativeRounding
import RelationalLP.Proofs.Number.RoundedIntegers
import RelationalLP.Proofs.Number.ShortestDecimals
import RelationalLP.Proofs.Number.UnitProducts
import RelationalLP.Proofs.Number.WrittenReals
import RelationalLP.Proofs.Problem.Runs
import RelationalLP.Proofs.Solving.BasicForm
import RelationalLP.Proofs.Solving.BlandRule
import RelationalLP.Proofs.Solving.Cells
import RelationalLP.Proofs.Solving.FirstTableau
import RelationalLP.Proofs.Solving.PivotChoice
import RelationalLP.Proofs.Solving.StepSequences
import RelationalLP.Proofs.Solving.Termination
import RelationalLP.Proofs.Solving.Verdicts
import RelationalLP.Proofs.Sql.Answers
import RelationalLP.Proofs.Sql.Arithmetic
import RelationalLP.Proofs.Sql.Coefficients
import RelationalLP.Proofs.Sql.Conditions
import RelationalLP.Proofs.Sql.Drafts
import RelationalLP.Proofs.Sql.Literals
import RelationalLP.Proofs.Sql.Meaning
import RelationalLP.Proofs.Sql.ReadStatements
import RelationalLP.Proofs.Sql.Reading
import RelationalLP.Proofs.Sql.RecordedLiterals
import RelationalLP.Proofs.Sql.RefusedCoefficients
import RelationalLP.Proofs.Sql.RememberedColumns
import RelationalLP.Proofs.Sql.ShownTexts
import RelationalLP.Proofs.Sql.TextConstants
import RelationalLP.Proofs.Sql.WrittenAnswers
import RelationalLP.Proofs.Symmetry.Averaging
import RelationalLP.Proofs.Symmetry.ClassNumbers
import RelationalLP.Proofs.Symmetry.CoarsestPartition
import RelationalLP.Proofs.Symmetry.FiniteReductions
import RelationalLP.Proofs.Symmetry.IncidenceColors
import RelationalLP.Proofs.Symmetry.Lossless
import RelationalLP.Proofs.Symmetry.Refinement
import RelationalLP.Proofs.Symmetry.RoundedLifting
import RelationalLP.Proofs.Symmetry.RoundedReductions
import RelationalLP.Proofs.Symmetry.Rounding
import RelationalLP.Settings
import RelationalLP.Solving.Error
import RelationalLP.Solving.Simplex
import RelationalLP.Solving.Solver
import RelationalLP.Sql.Draft
import RelationalLP.Sql.Schema
import RelationalLP.Sql.Session
import RelationalLP.Sql.Statement
import RelationalLP.Symmetry.Incidence
import RelationalLP.Symmetry.Lifting
import RelationalLP.Symmetry.Partition
import RelationalLP.Text.CaseIgnorable
import RelationalLP.Text.Cased
import RelationalLP.Text.CodeRanges
import RelationalLP.Text.LowerCase
