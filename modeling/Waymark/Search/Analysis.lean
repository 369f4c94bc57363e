import Waymark.Search.Traversal

/-!
# Analyses

What a whole search from a start vertex for a final vertex found: the records of all vertices it met, and the edges
that closed a loop, in the order in which it found them.
-/

namespace Waymark

/-- The outcome of one search. -/
structure Analysis where
  start : Vertex
  final : Vertex
  records : Array Record
  backEdges : List (Vertex × Vertex)
  deriving DecidableEq

namespace Analysis

/-- The record of a vertex that the search met. -/
def record? (a : Analysis) (v : Vertex) : Option Record :=
  a.records[v]?.filter (·.phase = .done)

/-- The record of the start vertex. -/
def startRecord (a : Analysis) : Record := a.records.getD a.start .outside

/-- The number of vertices that the search met. -/
def visited (a : Analysis) : Nat := a.records.countP (·.phase = .done)

end Analysis

namespace Graph

/-- Searches from one vertex of a graph for another. -/
def search (g : Graph) (start final : Vertex) : Analysis :=
  let σ := Search.run g final (.initial g start final)
  ⟨start, final, σ.records, σ.backEdges.reverse⟩

/-- Searches between vertices that the graph has to have; the start is looked at first. -/
def analyze (g : Graph) (start final : Vertex) : Except Misuse Analysis :=
  if !g.contains start then .error (.start start)
  else if !g.contains final then .error (.final final)
  else .ok (g.search start final)

end Graph

end Waymark
