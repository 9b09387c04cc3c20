import DiffAnalyzer.Atom
import DiffAnalyzer.CSource.Basic
import DiffAnalyzer.CSource.ElementFunction
import DiffAnalyzer.CSource.Fixed
import DiffAnalyzer.CSource.Integrator
import DiffAnalyzer.CSource.Output
import DiffAnalyzer.CSource.Realisation
import DiffAnalyzer.CSource.Text
import DiffAnalyzer.Circuit
import DiffAnalyzer.Classification
import DiffAnalyzer.CommandLine.Help
import DiffAnalyzer.CommandLine.Invocation
import DiffAnalyzer.CommandLine.Response
import DiffAnalyzer.Element
import DiffAnalyzer.EquationSet.Basic
import DiffAnalyzer.EquationSet.Linear
import DiffAnalyzer.Error
import DiffAnalyzer.Identifier
import DiffAnalyzer.Main
import DiffAnalyzer.Number.Basic
import DiffAnalyzer.Number.Decimal
import DiffAnalyzer.Number.Shortest
import DiffAnalyzer.Number.Text
import DiffAnalyzer.Program.Assembly
import DiffAnalyzer.Program.Basic
import DiffAnalyzer.Program.Listing
import DiffAnalyzer.Scheme
import DiffAnalyzer.Simulation.Interpretation
import DiffAnalyzer.Simulation.Run
import DiffAnalyzer.Simulation.RunOptions
import DiffAnalyzer.Simulation.Simulator
import DiffAnalyzer.SortedList
import DiffAnalyzer.SortedMap
import DiffAnalyzer.Source.CharWidth
import DiffAnalyzer.Source.Diagnostic
import DiffAnalyzer.Source.Grammar
import DiffAnalyzer.Source.Parse
import DiffAnalyzer.Source.Recognition
import DiffAnalyzer.Source.Region
import DiffAnalyzer.Source.Span
import DiffAnalyzer.Term.Basic
import DiffAnalyzer.Term.Order
import DiffAnalyzer.Term.Traversal
import DiffAnalyzer.TopologicalOrder
import DiffAnalyzer.Proofs.Failure
import DiffAnalyzer.Proofs.Linearization
import DiffAnalyzer.Proofs.Solutions
import DiffAnalyzer.Proofs.TopologicalOrder
import DiffAnalyzer.Proofs.SortRun
import DiffAnalyzer.Proofs.Classification
import DiffAnalyzer.Proofs.Assembly
import DiffAnalyzer.Proofs.Evaluation
import DiffAnalyzer.Proofs.Parts
import DiffAnalyzer.Proofs.Partition
import DiffAnalyzer.Proofs.WellFormedness
import DiffAnalyzer.Proofs.Consistency
import DiffAnalyzer.Proofs.Stepping
import DiffAnalyzer.Proofs.Frames
import DiffAnalyzer.Proofs.Reachability
import DiffAnalyzer.Proofs.Runs
import DiffAnalyzer.Proofs.LoopFree
import DiffAnalyzer.Proofs.Matching
import DiffAnalyzer.Proofs.StandIn
import DiffAnalyzer.Proofs.Correspondence
import DiffAnalyzer.Proofs.Compilation
import DiffAnalyzer.Proofs.StrictNaming
import DiffAnalyzer.Proofs.InitialRow
import DiffAnalyzer.Proofs.Overrides
import DiffAnalyzer.Proofs.NumberText
import DiffAnalyzer.Proofs.RoundTrip
import DiffAnalyzer.Proofs.FeedbackLoops
import DiffAnalyzer.Proofs.Acceptance
import DiffAnalyzer.Proofs.FixedPoints
import DiffAnalyzer.Proofs.EvaluationOrder
import DiffAnalyzer.Proofs.Lines
import DiffAnalyzer.Proofs.Files
import DiffAnalyzer.Proofs.Writing
import DiffAnalyzer.Proofs.FieldNames
import DiffAnalyzer.Proofs.Emission
import DiffAnalyzer.Proofs.Integrator
import DiffAnalyzer.Proofs.IntegratorLines
import DiffAnalyzer.Proofs.IntegratorText
import DiffAnalyzer.Proofs.Need
import DiffAnalyzer.Proofs.Rereading
import DiffAnalyzer.Proofs.Renaming
import DiffAnalyzer.Proofs.Scoping
import DiffAnalyzer.Proofs.SourceNumbers
import DiffAnalyzer.Proofs.CTokens
import DiffAnalyzer.Proofs.CStatements
import DiffAnalyzer.Proofs.CItems
import DiffAnalyzer.Proofs.CLayout
import DiffAnalyzer.Proofs.Outlines
import DiffAnalyzer.Proofs.FreshNames
import DiffAnalyzer.Proofs.LinearForm
import DiffAnalyzer.Proofs.Sharing
import DiffAnalyzer.Proofs.Cycles
import DiffAnalyzer.Proofs.Duplicates
import DiffAnalyzer.Proofs.AuxiliaryGroups
import DiffAnalyzer.Proofs.Checks
import DiffAnalyzer.Proofs.ParameterLookup
import DiffAnalyzer.Proofs.Accuracy
import DiffAnalyzer.Proofs.RenamerCalls
import DiffAnalyzer.Proofs.Cleaning
import DiffAnalyzer.Proofs.CleanedHeads
import DiffAnalyzer.Proofs.PlainSets
import DiffAnalyzer.Proofs.Refusals
import DiffAnalyzer.Proofs.TermOrder
import DiffAnalyzer.Proofs.ArgumentOrder
import DiffAnalyzer.Proofs.Interruption
import DiffAnalyzer.Proofs.Tokens
import DiffAnalyzer.Proofs.LayoutEdits
import DiffAnalyzer.Proofs.Traversals
import DiffAnalyzer.Proofs.DependencyGraph
import DiffAnalyzer.Proofs.CallOrder
import DiffAnalyzer.Proofs.Excerpts
