import Mathlib.Logic.Relation
import Waymark.Graph.Basic

/-!
# Walks

Walks in a graph that end where they meet a final vertex, whose own edges do not count. What a search reports about a
vertex is meant to be read off these: what it can reach (`Graph.Reach`), whether it can run into a loop
(`Graph.Loops`) or into a dead end (`Graph.Strands`), and whether every walk from it comes to the final vertex
(`Graph.Arrives`).

Paths (`Graph.IsPath`) are those of the whole graph, with no final vertex in view.
-/

namespace Waymark.Graph

/-- A path from `v` to `w` along edges of the graph, as the list of its vertices, both ends included. -/
inductive IsPath (g : Graph) : (v w : Vertex) → (path : List Vertex) → Prop where
  | single (v : Vertex) : IsPath g v v [v]
  | cons {u v w : Vertex} {path : List Vertex} (hv : v ∈ g.successors u) (hp : IsPath g v w path) :
      IsPath g u w (u :: path)

/-- An edge that a walk to `final` may take. -/
def Arc (g : Graph) (final v w : Vertex) : Prop := v ≠ final ∧ w ∈ g.successors v

/-- A walk to `final` may go from `v` to `w`. -/
def Reach (g : Graph) (final : Vertex) : Vertex → Vertex → Prop := Relation.ReflTransGen (g.Arc final)

/-- A vertex lies on a loop that does not pass `final`. -/
def OnLoop (g : Graph) (final v : Vertex) : Prop := Relation.TransGen (g.Arc final) v v

/-- A walk from `v` may run into a loop. -/
def Loops (g : Graph) (final v : Vertex) : Prop := ∃ w, g.Reach final v w ∧ g.OnLoop final w

/-- A walk from `v` may run into a dead end. -/
def Strands (g : Graph) (final v : Vertex) : Prop := ∃ w, g.Reach final v w ∧ w ≠ final ∧ g.isSink w = true

/-- Every walk from `v` ends, and ends at `final`. -/
def Arrives (g : Graph) (final v : Vertex) : Prop := ¬g.Loops final v ∧ ¬g.Strands final v

end Waymark.Graph
