import SparqlAlgebra.ActiveGraph
import SparqlAlgebra.Aggregate
import SparqlAlgebra.Algebra
import SparqlAlgebra.Algebra.Render
import SparqlAlgebra.Algebra.Structure
import SparqlAlgebra.Algebra.Traversal
import SparqlAlgebra.Algebra.Variables
import SparqlAlgebra.Binding
import SparqlAlgebra.Binding.Entries
import SparqlAlgebra.Binding.Lemmas
import SparqlAlgebra.Dataset
import SparqlAlgebra.Dataset.Index
import SparqlAlgebra.Dataset.View
import SparqlAlgebra.DateTime
import SparqlAlgebra.Distinct
import SparqlAlgebra.Error
import SparqlAlgebra.Evaluation
import SparqlAlgebra.Evaluation.Expressions
import SparqlAlgebra.Evaluation.GraphPattern
import SparqlAlgebra.Evaluation.Grouping
import SparqlAlgebra.Evaluation.Paths
import SparqlAlgebra.Evaluation.Plan
import SparqlAlgebra.Evaluation.Scopes
import SparqlAlgebra.Evaluation.State
import SparqlAlgebra.Evaluation.State.Lemmas
import SparqlAlgebra.Evaluation.Statistics
import SparqlAlgebra.Function.Casts
import SparqlAlgebra.Function.Name
import SparqlAlgebra.Function.Registry
import SparqlAlgebra.Function.Strings
import SparqlAlgebra.Function.Terms
import SparqlAlgebra.Number
import SparqlAlgebra.Number.Bounded
import SparqlAlgebra.Number.Decimal
import SparqlAlgebra.Number.Floating
import SparqlAlgebra.Operator
import SparqlAlgebra.Optimizer
import SparqlAlgebra.Optimizer.CrossProducts
import SparqlAlgebra.Optimizer.EarlyStop
import SparqlAlgebra.Optimizer.PatternOrder
import SparqlAlgebra.Optimizer.Rule
import SparqlAlgebra.Path
import SparqlAlgebra.Pattern
import SparqlAlgebra.Quad
import SparqlAlgebra.Query
import SparqlAlgebra.Query.Answer
import SparqlAlgebra.Query.Lowering
import SparqlAlgebra.Regex
import SparqlAlgebra.Regex.Bracket
import SparqlAlgebra.Regex.Escape
import SparqlAlgebra.Regex.Machine
import SparqlAlgebra.Regex.Matching
import SparqlAlgebra.Regex.Reader
import SparqlAlgebra.Results
import SparqlAlgebra.Results.Construct
import SparqlAlgebra.Results.Description
import SparqlAlgebra.Solutions
import SparqlAlgebra.Solutions.Join
import SparqlAlgebra.Solutions.Operations
import SparqlAlgebra.Term
import SparqlAlgebra.Text.Alphabet
import SparqlAlgebra.Text.CaseMapping
import SparqlAlgebra.Text.CharClass
import SparqlAlgebra.Text.CodePoints
import SparqlAlgebra.Text.Digest
import SparqlAlgebra.Text.IriGrammar
import SparqlAlgebra.Text.LanguageTag
import SparqlAlgebra.Text.Printable
import SparqlAlgebra.Text.Quoted
import SparqlAlgebra.Value
import SparqlAlgebra.Proofs.RunRelations
import SparqlAlgebra.Proofs.Steadiness
import SparqlAlgebra.Proofs.SteadyOperators
import SparqlAlgebra.Proofs.Links
import SparqlAlgebra.Proofs.PathLinks
import SparqlAlgebra.Proofs.Renaming
import SparqlAlgebra.Proofs.PathNames
import SparqlAlgebra.Proofs.SteadyTrees
import SparqlAlgebra.Proofs.Demand
import SparqlAlgebra.Proofs.DemandOperators
import SparqlAlgebra.Proofs.DemandIgnored
import SparqlAlgebra.Proofs.DemandPatterns
import SparqlAlgebra.Proofs.DemandTrees
import SparqlAlgebra.Proofs.Laziness
import SparqlAlgebra.Proofs.EarlyStops
import SparqlAlgebra.Proofs.PlainExpressions
import SparqlAlgebra.Proofs.AnyOrder
import SparqlAlgebra.Proofs.PatternJoins
import SparqlAlgebra.Proofs.Rearrangements
import SparqlAlgebra.Proofs.PatternOrders
import SparqlAlgebra.Proofs.Searching
import SparqlAlgebra.Proofs.PathCounts
import SparqlAlgebra.Proofs.Ensures
import SparqlAlgebra.Proofs.PathEnds
import SparqlAlgebra.Proofs.Seeds
import SparqlAlgebra.Proofs.SeedTrees
import SparqlAlgebra.Proofs.JoinLaws
import SparqlAlgebra.Proofs.FoldedGroups
import SparqlAlgebra.Proofs.SeededDemands
import SparqlAlgebra.Proofs.MatchDemands
import SparqlAlgebra.Proofs.GraphNames
import SparqlAlgebra.Proofs.SeededJoins
import SparqlAlgebra.Proofs.Merging
import SparqlAlgebra.Proofs.AssignedPatterns
import SparqlAlgebra.Proofs.AssignedGroups
import SparqlAlgebra.Proofs.AssignedOrders
import SparqlAlgebra.Proofs.Likeness
import SparqlAlgebra.Proofs.UniformOperators
import SparqlAlgebra.Proofs.PathNodes
import SparqlAlgebra.Proofs.UniformPaths
import SparqlAlgebra.Proofs.UniformTrees
import SparqlAlgebra.Proofs.StorageFailures
import SparqlAlgebra.Proofs.Isolation
import SparqlAlgebra.Proofs.EnsuredPlans
import SparqlAlgebra.Proofs.BoundVariables
import SparqlAlgebra.Proofs.DeclaredVariables
import SparqlAlgebra.Proofs.DryRuns
import SparqlAlgebra.Proofs.RelatedMonads
import SparqlAlgebra.Proofs.Evaluators
import SparqlAlgebra.Proofs.MatchConditions
import SparqlAlgebra.Proofs.IndexedContents
import SparqlAlgebra.Proofs.ElementOrders
import SparqlAlgebra.Proofs.Influences
import SparqlAlgebra.Proofs.NestedLoops
import SparqlAlgebra.Proofs.JoinSemiring
import SparqlAlgebra.Proofs.Reachability
import SparqlAlgebra.Proofs.ReachedRows
import SparqlAlgebra.Proofs.FoldedAssignments
import SparqlAlgebra.Proofs.LoweredPaths
import SparqlAlgebra.Proofs.EmptyPaths
import SparqlAlgebra.Proofs.RenamedRuns
import SparqlAlgebra.Proofs.RenamedSolutions
import SparqlAlgebra.Proofs.RenamedPlans
import SparqlAlgebra.Proofs.Relabelling
import SparqlAlgebra.Proofs.RenamedPatterns
import SparqlAlgebra.Proofs.RenamedTrees
import SparqlAlgebra.Proofs.BlankLabels
import SparqlAlgebra.Proofs.ValueOrder
import SparqlAlgebra.Proofs.TermOrder
import SparqlAlgebra.Proofs.SortedSolutions
import SparqlAlgebra.Proofs.GroupedSolutions
import SparqlAlgebra.Proofs.Totals
import SparqlAlgebra.Proofs.ValueEquality
import SparqlAlgebra.Proofs.Calculations
import SparqlAlgebra.Proofs.Conditions
import SparqlAlgebra.Proofs.TruthValues
import SparqlAlgebra.Proofs.BlankNodeCalls
import SparqlAlgebra.Proofs.ActiveTriples
import SparqlAlgebra.Proofs.Descriptions
import SparqlAlgebra.Proofs.Constructions
import SparqlAlgebra.Proofs.VisitedNodes
import SparqlAlgebra.Proofs.Substrings
import SparqlAlgebra.Proofs.ReorderedElements
import SparqlAlgebra.Proofs.SettledElements
import SparqlAlgebra.Proofs.MappedTrees
import SparqlAlgebra.Proofs.SettledTrees
import SparqlAlgebra.Proofs.Headers
import SparqlAlgebra.Proofs.FiniteMaps
import SparqlAlgebra.Proofs.GrowingDemands
