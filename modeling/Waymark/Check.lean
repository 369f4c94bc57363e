import Waymark.FlowGraph
import Waymark.Program.Source
import Waymark.Query

/-!
# Checking a source

The whole way from a source text to an outcome: the program is read, split at its tracepoints and turned into its
control-flow graph, in which the trace is looked for.
-/

namespace Waymark

/-- Everything that a check made: the split program, its control-flow graph, and the outcome. -/
structure Checked where
  program : Program
  flowGraph : FlowGraph
  outcome : Outcome
  deriving DecidableEq

/-- Why a check has no outcome. -/
inductive CheckError where
  | source (e : SourceError)
  | misuse (e : Misuse)
  deriving DecidableEq

/-- The text of an error. -/
def CheckError.message : CheckError → String
  | source e => e.message
  | misuse e => e.message

/-- Checks the trace between two tracepoints of a program. -/
def Program.check (p : Program) (marker start final : String) : Except CheckError (Logged Checked) := do
  let split := p.split marker
  let built := FlowGraph.build marker split.program
  let flowGraph ← built.value.mapError .misuse
  let result ← (flowGraph.graph.query flowGraph.labels start final).mapError .misuse
  return ⟨⟨split.program, flowGraph, result.value⟩, split.events ++ built.events ++ result.events⟩

/-- Checks the trace between two tracepoints of the program that a source denotes. -/
def checkSource (source marker start final : String) : Except CheckError (Logged Checked) := do
  let p ← (Program.parse source).mapError .source
  p.check marker start final

end Waymark
