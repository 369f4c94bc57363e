import Waymark.Check
import Waymark.Colour
import Waymark.CommandLine.Help
import Waymark.CommandLine.Options
import Waymark.Event
import Waymark.FlowGraph
import Waymark.Graph.Basic
import Waymark.Graph.Labels
import Waymark.Graph.Walk
import Waymark.Log.Console
import Waymark.Log.Directive
import Waymark.Log.Filter
import Waymark.Log.Level
import Waymark.Log.Pattern
import Waymark.Main
import Waymark.Misuse
import Waymark.Outcome
import Waymark.Parsing
import Waymark.Program.Basic
import Waymark.Program.Parser
import Waymark.Program.Printer
import Waymark.Program.Run
import Waymark.Program.Source
import Waymark.Program.Spelling
import Waymark.Program.Split
import Waymark.Program.WellFormed
import Waymark.Proofs.BlockGraph
import Waymark.Proofs.Check
import Waymark.Proofs.ExitStatus
import Waymark.Proofs.FlowGraph
import Waymark.Proofs.GraphSession
import Waymark.Proofs.Guarded.Check
import Waymark.Proofs.Guarded.FlowGraph
import Waymark.Proofs.Guarded.Search
import Waymark.Proofs.Guarded.Split
import Waymark.Proofs.LeadingTracepoints
import Waymark.Proofs.OneFunction
import Waymark.Proofs.OpaqueWork
import Waymark.Proofs.Parsing
import Waymark.Proofs.PrintedCheck
import Waymark.Proofs.PrintedGraph
import Waymark.Proofs.Program.FirstFault
import Waymark.Proofs.Program.FreshLabels
import Waymark.Proofs.Program.Grammar
import Waymark.Proofs.Program.Heads
import Waymark.Proofs.Program.Insertion
import Waymark.Proofs.Program.Landing
import Waymark.Proofs.Program.Positions
import Waymark.Proofs.Program.Printing
import Waymark.Proofs.Program.Rejection
import Waymark.Proofs.Program.Source
import Waymark.Proofs.Program.Split
import Waymark.Proofs.Program.SplitBlocks
import Waymark.Proofs.Program.SplitForm
import Waymark.Proofs.Program.SplitPlaces
import Waymark.Proofs.Program.SplitRules
import Waymark.Proofs.Program.SplitRuns
import Waymark.Proofs.Program.Tokens
import Waymark.Proofs.Program.WellFormed
import Waymark.Proofs.Query
import Waymark.Proofs.Relabelling
import Waymark.Proofs.RepeatedTargets
import Waymark.Proofs.Repetitions
import Waymark.Proofs.Search.ActivePath
import Waymark.Proofs.Search.Acts
import Waymark.Proofs.Search.Clean
import Waymark.Proofs.Search.Exact
import Waymark.Proofs.Search.Mirror
import Waymark.Proofs.Search.ParallelEdges
import Waymark.Proofs.Search.Records
import Waymark.Proofs.Search.Recursion
import Waymark.Proofs.Search.Region
import Waymark.Proofs.Search.Sound
import Waymark.Proofs.Search.Subdivision
import Waymark.Proofs.Search.SuccessorOrder
import Waymark.Proofs.Search.Survey
import Waymark.Proofs.Search.Unreachable
import Waymark.Proofs.Tracepoints
import Waymark.Proofs.Truthful
import Waymark.Proofs.Walks
import Waymark.Query
import Waymark.Report
import Waymark.Search.Analysis
import Waymark.Search.Record
import Waymark.Search.Recursive
import Waymark.Search.Traversal
import Waymark.SourceFile
import Waymark.Terminal
import Waymark.Text.Alphanumeric
import Waymark.Text.Space
import Waymark.Tool
