import Waymark.Event
import Waymark.Graph.Labels

/-!
# Control-flow graphs

The graph of a program has a vertex for each block, numbered function by function, and an edge for each target of a
terminator. A label stands for the last block of its function that bears it, as the target of a branch and as its
source alike. Every tracepoint is a name for the vertex of its call; of several calls the last one counts, and each
change is an event.

A branch to a label that its function does not have stops the work where it is met; the events so far stand.
-/

namespace Waymark

/-- The graph of a program, the vertices of its tracepoints, and the names of its blocks by vertex. -/
structure FlowGraph where
  graph : Graph
  labels : Labels
  blocks : List BlockName
  deriving DecidableEq

/-! ## Labels to vertices -/

/-- Where a word stands last in a list. -/
def lastIndex? (word : String) : List String → Option Nat
  | [] => none
  | w :: words =>
    match lastIndex? word words with
    | some i => some (i + 1)
    | none => if w = word then some 0 else none

/-- What a block adds to the graph: the vertex of its label, those of its targets, and its tracepoints. -/
structure Site where
  vertex : Vertex
  targets : List (Option Vertex)
  tracepoints : List String
  deriving DecidableEq

/-- Whether all targets were found. -/
def Site.complete (s : Site) : Bool := s.targets.all (·.isSome)

/-- The edges that a block adds. -/
def Site.edges (s : Site) : List (Vertex × Vertex) :=
  s.targets.filterMap fun t => t.map fun w => (s.vertex, w)

/-- The tracepoint calls of a block, with its vertex. -/
def Site.calls (s : Site) : List (String × Vertex) :=
  s.tracepoints.map fun name => (name, s.vertex)

/-- The sites of a function whose first block is the vertex `base`. -/
def Function.sites (marker : String) (base : Nat) (f : Function) : List Site :=
  let vertexOf (label : String) : Option Vertex := (lastIndex? label f.labels).map (base + ·)
  f.blocks.map fun b =>
    ⟨(vertexOf b.label).getD base, b.successors.map vertexOf, b.tracepoints marker⟩

/-- The sites of functions whose first block is the vertex `base`. -/
def sitesFrom (marker : String) (base : Nat) : List Function → List Site
  | [] => []
  | f :: fs => f.sites marker base ++ sitesFrom marker (base + f.blocks.length) fs

/-- The sites of a program, in the order of its blocks. -/
def Program.sites (marker : String) (p : Program) : List Site :=
  sitesFrom marker 0 p.functions

/-! ## Tracepoints to vertices -/

/-- A tracepoint that was found again at another vertex. -/
structure Rebinding where
  name : String
  previous : Vertex
  current : Vertex
  deriving DecidableEq

/-- The moves of tracepoints through calls that follow those of `labels`. -/
def rebindings (labels : Labels) : (calls : List (String × Vertex)) → List Rebinding
  | [] => []
  | (name, v) :: calls =>
    let moved := match labels.get? name with
      | some u => if u = v then [] else [⟨name, u, v⟩]
      | none => []
    moved ++ rebindings (labels.insert name v) calls

/-- The event of a move, for blocks with these names by vertex. -/
def Rebinding.event? (blocks : List BlockName) (r : Rebinding) : Option Event :=
  match blocks[r.previous]?, blocks[r.current]? with
  | some previous, some current => some (.rebound r.name previous current)
  | _, _ => none

/-! ## Whole graphs -/

namespace FlowGraph

/-- The control-flow graph of a program, unless a branch leads to an unknown label. -/
def build (marker : String) (p : Program) : Logged (Except Misuse FlowGraph) :=
  let blocks := p.blockNames
  let sites := p.sites marker
  let done := sites.takeWhile Site.complete
  let calls := done.flatMap Site.calls
  let moves := (rebindings .empty calls).filterMap (Rebinding.event? blocks)
  if done.length < sites.length then ⟨.error .unknownLabel, moves⟩
  else match Graph.ofEdges blocks.length (sites.flatMap Site.edges) with
    | .error e => ⟨.error e, moves⟩
    | .ok graph =>
      let labels := Labels.ofList calls
      ⟨.ok ⟨graph, labels, blocks⟩, moves ++ [.built graph.size graph.edgeCount labels.size]⟩

/-- The name of a block, with the names of its tracepoints in brackets. -/
def renderBlock (g : FlowGraph) (v : Vertex) (name : BlockName) : String :=
  let names := g.labels.namesOf v
  name.render ++ if names.isEmpty then "" else " [" ++ ", ".intercalate names ++ "]"

/-- One line for each vertex, with its block, its tracepoints and its successors. -/
def render (g : FlowGraph) : String :=
  String.join (g.blocks.mapIdx fun v name =>
    Vertex.render v ++ " " ++ g.renderBlock v name ++ renderArrow (g.graph.successors v) ++ "\n")

end FlowGraph

end Waymark
