/-!
# Misuse

Requests that the caller has to rule out: each names what it asked for, and `Misuse.message` says so in words.
-/

namespace Waymark

/-- A request that its caller had to rule out. -/
inductive Misuse where
  /-- An edge to a vertex that a graph does not have. -/
  | edgeTarget (target size : Nat)
  /-- A look at a vertex that a graph does not have. -/
  | index (index size : Nat)
  /-- A search from a vertex that the graph does not have. -/
  | start (vertex : Nat)
  /-- A search for a vertex that the graph does not have. -/
  | final (vertex : Nat)
  /-- A result for two known tracepoints without a search. -/
  | notAnalyzed
  /-- A branch to a label that its function does not have. -/
  | unknownLabel
  deriving DecidableEq

/-- The text of a misuse. -/
def Misuse.message : Misuse → String
  | edgeTarget target size =>
    "edge target v" ++ toString target ++ " out of range for graph of " ++ toString size ++ " vertices"
  | index i size => "index out of bounds: the len is " ++ toString size ++ " but the index is " ++ toString i
  | start v => "start vertex v" ++ toString v ++ " not in graph"
  | final v => "final vertex v" ++ toString v ++ " not in graph"
  | notAnalyzed => "both tracepoints exist but the start vertex was never analyzed"
  | unknownLabel => "no entry found for key"

end Waymark
