import Waymark.Misuse

/-!
# Directed graphs

Vertices are numbered from zero, and every vertex has an ordered list of successors, in which one may stand more than
once. A graph holds no edge to a vertex that it does not have (`Graph.closed`): `Graph.addEdge` refuses those.
-/

namespace Waymark

/-- A vertex is its number. -/
abbrev Vertex := Nat

/-- A vertex is written with a `v` before its number. -/
def Vertex.render (v : Vertex) : String := "v" ++ toString v

/-- Vertices with `, ` between them, after an arrow; nothing if there are none. -/
def renderArrow (vs : List Vertex) : String :=
  if vs.isEmpty then "" else " -> " ++ ", ".intercalate (vs.map Vertex.render)

/-- The successors of every vertex. -/
structure Graph where
  adjacency : Array (List Vertex)
  closed : ∀ ws ∈ adjacency, ∀ w ∈ ws, w < adjacency.size
  deriving DecidableEq

namespace Graph

/-! ## Looking at a graph -/

/-- The number of vertices. -/
def size (g : Graph) : Nat := g.adjacency.size

/-- Whether a graph has a vertex. -/
def contains (g : Graph) (v : Vertex) : Bool := v < g.size

/-- The successors of a vertex, in order; none for a vertex that the graph does not have. -/
def successors (g : Graph) (v : Vertex) : List Vertex := g.adjacency.getD v []

/-- The successors of a vertex that the graph has to have. -/
def getSuccessors (g : Graph) (v : Vertex) : Except Misuse (List Vertex) :=
  if g.contains v then .ok (g.successors v) else .error (.index v g.size)

/-- Whether no edge leaves a vertex. -/
def isSink (g : Graph) (v : Vertex) : Bool := (g.successors v).isEmpty

/-- The vertices in order. -/
def vertices (g : Graph) : List Vertex := List.range g.size

/-- The number of edges, parallel ones counted apart. -/
def edgeCount (g : Graph) : Nat := (g.vertices.flatMap g.successors).length

/-- One line for each vertex, with its successors. -/
def render (g : Graph) : String :=
  String.join (g.vertices.map fun v => v.render ++ renderArrow (g.successors v) ++ "\n")

/-- The successors of a vertex are vertices. -/
theorem lt_size_of_mem_successors (g : Graph) {v w : Vertex} (h : w ∈ g.successors v) : w < g.size := by
  unfold successors at h
  by_cases hv : v < g.adjacency.size
  · simp only [Array.getD, hv, dite_true] at h
    exact g.closed _ (Array.getElem_mem hv) _ h
  · simp [Array.getD, hv] at h

/-! ## Building a graph -/

/-- `n` vertices and no edges. -/
def withVertices (n : Nat) : Graph where
  adjacency := Array.replicate n []
  closed ws hws w hw := by
    rw [Array.mem_replicate] at hws
    simp [hws.2] at hw

/-- The graph without vertices. -/
def empty : Graph := withVertices 0

/-- One more vertex, numbered by the old size. -/
def addVertex (g : Graph) : Graph where
  adjacency := g.adjacency.push []
  closed ws hws w hw := by
    rw [Array.size_push]
    rcases Array.mem_push.mp hws with h | rfl
    · exact Nat.lt_succ_of_lt (g.closed ws h w hw)
    · simp at hw

/-- One more edge, behind the others of its source, to a vertex that the graph has. -/
def insertEdge (g : Graph) (source target : Vertex) (h : target < g.size) : Graph where
  adjacency := g.adjacency.modify source (· ++ [target])
  closed ws hws w hw := by
    rw [Array.size_modify]
    obtain ⟨i, hi, rfl⟩ := Array.mem_iff_getElem.mp hws
    rw [Array.size_modify] at hi
    rw [Array.getElem_modify] at hw
    split at hw
    · rcases List.mem_append.mp hw with hw | hw
      · exact g.closed _ (Array.getElem_mem hi) w hw
      · rw [List.mem_singleton.mp hw]; exact h
    · exact g.closed _ (Array.getElem_mem hi) w hw

/-- One more edge between vertices that the graph has to have; the target is looked at first. -/
def addEdge (g : Graph) (source target : Vertex) : Except Misuse Graph :=
  if h : target < g.size then
    if source < g.size then .ok (g.insertEdge source target h) else .error (.index source g.size)
  else .error (.edgeTarget target g.size)

/-- More edges, in order. -/
def addEdges (g : Graph) (edges : List (Vertex × Vertex)) : Except Misuse Graph :=
  edges.foldlM (fun g (source, target) => g.addEdge source target) g

/-- `n` vertices with edges in order. -/
def ofEdges (n : Nat) (edges : List (Vertex × Vertex)) : Except Misuse Graph :=
  (withVertices n).addEdges edges

/-! ## What a graph answers -/

/-- Vertices that a graph does not have lead nowhere. -/
theorem successors_of_size_le {g : Graph} {v : Vertex} (h : g.size ≤ v) : g.successors v = [] := by
  unfold size at h
  simp [successors, Array.getD, Nat.not_lt.mpr h]

@[simp] theorem size_withVertices (n : Nat) : (withVertices n).size = n := by
  simp [withVertices, size]

@[simp] theorem successors_withVertices (n : Nat) (v : Vertex) : (withVertices n).successors v = [] := by
  simp only [withVertices, successors, Array.getD_eq_getD_getElem?, Array.getElem?_replicate]
  split <;> rfl

@[simp] theorem size_addVertex (g : Graph) : g.addVertex.size = g.size + 1 := by
  simp [addVertex, size]

@[simp] theorem successors_addVertex (g : Graph) (v : Vertex) : g.addVertex.successors v = g.successors v := by
  simp only [addVertex, successors, Array.getD_eq_getD_getElem?, Array.getElem?_push]
  split
  next h => subst h; simp
  next => rfl

@[simp] theorem size_insertEdge (g : Graph) (v w : Vertex) (h : w < g.size) : (g.insertEdge v w h).size = g.size := by
  simp [insertEdge, size]

/-- A new edge comes last at its source. -/
theorem successors_insertEdge (g : Graph) {v w : Vertex} (h : w < g.size) (hv : v < g.size) (u : Vertex) :
    (g.insertEdge v w h).successors u = if u = v then g.successors u ++ [w] else g.successors u := by
  simp only [insertEdge, successors, Array.getD_eq_getD_getElem?, Array.getElem?_modify]
  by_cases hu : u = v
  · subst hu
    have : u < g.adjacency.size := hv
    simp [this]
  · simp [hu, Ne.symm hu]

end Graph

end Waymark
