import Waymark.Proofs.FlowGraph
import Waymark.Proofs.Guarded.Search

/-!
# Graphs in use

Whoever holds a graph replaces it by a new one or lets it grow, and a request that is refused changes nothing
(`Session.step`). Along with the graph, the edges are noted that were put in since it was made. Every request keeps the
two in step (`Session.InStep`): the noted edges lie between vertices of the graph, and the successors of a vertex are
their targets, in order. So after any requests the graph has as many edges as were noted, and they are in range.

Nothing else is asked of a graph by a search: it looks up records and successors only of vertices that the graph has, if
its start and final vertex are such. A query is refused only for names of other vertices.
-/

namespace Waymark

/-! ## Refusals -/

namespace Graph

variable {g : Graph} {s t f : Vertex} {e : Misuse} {edges : List (Vertex × Vertex)}

/-- An edge is refused for its target first, then for its source. -/
theorem addEdge_eq_error_iff :
    g.addEdge s t = .error e ↔
      g.size ≤ t ∧ e = .edgeTarget t g.size ∨ t < g.size ∧ g.size ≤ s ∧ e = .index s g.size := by
  unfold addEdge
  by_cases ht : t < g.size
  · by_cases hs : s < g.size
    · simp [ht, hs]
    · simp [ht, hs, Nat.not_lt.mp hs, eq_comm]
  · simp [ht, Nat.not_lt.mp ht, eq_comm]

theorem addEdge_eq_ok_iff {g' : Graph} :
    g.addEdge s t = .ok g' ↔ s < g.size ∧ ∃ h : t < g.size, g' = g.insertEdge s t h := by
  unfold addEdge
  by_cases ht : t < g.size
  · by_cases hs : s < g.size
    · simp [ht, hs, eq_comm]
    · simp [ht, hs]
  · simp [ht]

/-- Edges that were all added lie between vertices of the graph. -/
theorem lt_size_of_addEdges {g' : Graph} (h : g.addEdges edges = .ok g') :
    ∀ e ∈ edges, e.1 < g.size ∧ e.2 < g.size := by
  induction edges generalizing g with
  | nil => simp
  | cons e edges ih =>
    obtain ⟨v, w⟩ := e
    have hbind : (g.addEdge v w >>= fun g => g.addEdges edges) = .ok g' := h
    cases hadd : g.addEdge v w with
    | error e =>
      rw [hadd] at hbind
      cases hbind
    | ok g₁ =>
      rw [hadd, ok_bind] at hbind
      obtain ⟨hv, hw, rfl⟩ := addEdge_eq_ok_iff.mp hadd
      have hedges := ih hbind
      rw [size_insertEdge] at hedges
      exact List.forall_mem_cons.mpr ⟨⟨hv, hw⟩, hedges⟩

/-- A search is refused for its start first, then for its final vertex. -/
theorem analyze_eq_error_iff :
    g.analyze s f = .error e ↔ g.size ≤ s ∧ e = .start s ∨ s < g.size ∧ g.size ≤ f ∧ e = .final f := by
  unfold analyze contains
  by_cases hs : s < g.size
  · by_cases hf : f < g.size
    · simp [hs, hf]
    · simp [hs, hf, Nat.not_lt.mp hf, eq_comm]
  · simp [hs, Nat.not_lt.mp hs, eq_comm]

/-- Of two vertices, looked at one after the other, some is refused exactly if one is not there. -/
theorem exists_refusal_iff {n a b : Nat} {x y : Misuse} :
    (∃ e, n ≤ a ∧ e = x ∨ a < n ∧ n ≤ b ∧ e = y) ↔ n ≤ a ∨ n ≤ b := by
  constructor
  · rintro ⟨e, ⟨ha, -⟩ | ⟨-, hb, -⟩⟩
    · exact .inl ha
    · exact .inr hb
  · intro h
    by_cases ha : n ≤ a
    · exact ⟨x, .inl ⟨ha, rfl⟩⟩
    · exact ⟨y, .inr ⟨by omega, h.resolve_left ha, rfl⟩⟩

/-- A query is refused where the search between two known names is. -/
theorem query_eq_error_iff {labels : Labels} {start final : String} :
    g.query labels start final = .error e ↔
      ∃ s f, labels.get? start = some s ∧ labels.get? final = some f ∧ g.analyze s f = .error e := by
  by_cases hmissing : labels.get? start = none ∨ labels.get? final = none
  · obtain ⟨events, hquery⟩ := g.query_of_missing hmissing
    rw [hquery]
    constructor
    · intro h
      cases h
    · rintro ⟨s, f, hs, hf, -⟩
      simp [hs, hf] at hmissing
  · rw [not_or, ← ne_eq, ← ne_eq, Option.ne_none_iff_exists', Option.ne_none_iff_exists'] at hmissing
    obtain ⟨⟨s, hs⟩, f, hf⟩ := hmissing
    have hquery : g.query labels start final = .error e ↔ g.analyze s f = .error e := by
      unfold query
      simp only [hs, hf]
      cases g.analyze s f with
      | error e' =>
        constructor
        · intro h
          cases h
          rfl
        · intro h
          cases h
          rfl
      | ok a =>
        constructor
        · intro h
          cases h
        · intro h
          cases h
    rw [hquery]
    constructor
    · exact fun h => ⟨s, f, hs, hf, h⟩
    · rintro ⟨s', f', hs', hf', h⟩
      cases hs.symm.trans hs'
      cases hf.symm.trans hf'
      exact h

end Graph

/-! ## Requests -/

/-- What whoever holds a graph may ask for: a new one in its place, or that it grows. -/
inductive Request where
  | empty
  | withVertices (n : Nat)
  | ofEdges (n : Nat) (edges : List (Vertex × Vertex))
  | addVertex
  | addEdge (source target : Vertex)
  deriving DecidableEq

namespace Request

/-- The graph that a request makes of another one, unless it is refused. -/
def perform (g : Graph) : Request → Except Misuse Graph
  | empty => .ok .empty
  | withVertices n => .ok (.withVertices n)
  | ofEdges n edges => Graph.ofEdges n edges
  | addVertex => .ok g.addVertex
  | addEdge source target => g.addEdge source target

/-- The edges put into a graph since it was made, once a request was met: a new graph starts with those it is given. -/
def note (edges : List (Vertex × Vertex)) : Request → List (Vertex × Vertex)
  | empty | withVertices _ => []
  | ofEdges _ given => given
  | addVertex => edges
  | addEdge source target => edges ++ [(source, target)]

end Request

/-- A graph in use, with the edges put in since it was made. -/
structure Session where
  graph : Graph
  edges : List (Vertex × Vertex)
  deriving DecidableEq

namespace Session

/-- Meets a request; if it is refused, everything stays as it was. -/
def step (σ : Session) (r : Request) : Session :=
  match r.perform σ.graph with
  | .ok g => ⟨g, r.note σ.edges⟩
  | .error _ => σ

/-- Meets requests one after the other, from the empty graph on. -/
def run (requests : List Request) : Session := requests.foldl step ⟨.empty, []⟩

/-- The noted edges are those of the graph. -/
structure InStep (σ : Session) : Prop where
  edges_lt : ∀ e ∈ σ.edges, e.1 < σ.graph.size ∧ e.2 < σ.graph.size
  successors : ∀ v, σ.graph.successors v = (σ.edges.filter (·.1 = v)).map Prod.snd

variable {σ : Session} {r : Request} {g : Graph}

theorem inStep_withVertices (n : Nat) : InStep ⟨.withVertices n, []⟩ where
  edges_lt e he := by cases he
  successors v := Graph.successors_withVertices n v

theorem inStep_ofEdges {n : Nat} {edges : List (Vertex × Vertex)} (h : Graph.ofEdges n edges = .ok g) :
    InStep ⟨g, edges⟩ := by
  have hlt := Graph.lt_size_of_addEdges h
  obtain ⟨g', hok, hsize, hsucc⟩ := (Graph.withVertices n).addEdges_of_lt hlt
  obtain rfl : g' = g := Except.ok.inj (hok.symm.trans h)
  constructor
  · rw [hsize]
    exact hlt
  · intro v
    rw [hsucc, Graph.successors_withVertices, List.nil_append]

theorem InStep.addVertex (h : σ.InStep) : InStep ⟨σ.graph.addVertex, σ.edges⟩ where
  edges_lt e he := by
    obtain ⟨hs, ht⟩ := h.edges_lt e he
    show e.1 < σ.graph.addVertex.size ∧ e.2 < σ.graph.addVertex.size
    rw [Graph.size_addVertex]
    exact ⟨Nat.lt_succ_of_lt hs, Nat.lt_succ_of_lt ht⟩
  successors v := by
    show σ.graph.addVertex.successors v = _
    rw [Graph.successors_addVertex]
    exact h.successors v

theorem InStep.insertEdge {s t : Vertex} (h : σ.InStep) (hs : s < σ.graph.size) (ht : t < σ.graph.size) :
    InStep ⟨σ.graph.insertEdge s t ht, σ.edges ++ [(s, t)]⟩ where
  edges_lt := by
    rw [List.forall_mem_append]
    show (∀ e ∈ σ.edges, e.1 < (σ.graph.insertEdge s t ht).size ∧ _) ∧ _
    rw [Graph.size_insertEdge]
    exact ⟨h.edges_lt, List.forall_mem_singleton.mpr ⟨hs, ht⟩⟩
  successors v := by
    show (σ.graph.insertEdge s t ht).successors v = _
    rw [Graph.successors_insertEdge _ ht hs, h.successors, List.filter_append, List.map_append]
    by_cases hv : v = s
    · simp [hv]
    · simp [hv, Ne.symm hv]

/-- **A request keeps graph and notes in step**, met or refused. -/
theorem InStep.step (h : σ.InStep) (r : Request) : (σ.step r).InStep := by
  unfold Session.step
  cases hr : r.perform σ.graph with
  | error e => exact h
  | ok g =>
    cases r with
    | empty =>
      cases hr
      exact inStep_withVertices 0
    | withVertices n =>
      cases hr
      exact inStep_withVertices n
    | ofEdges n edges => exact inStep_ofEdges hr
    | addVertex =>
      cases hr
      exact h.addVertex
    | addEdge s t =>
      obtain ⟨hs, ht, rfl⟩ := Graph.addEdge_eq_ok_iff.mp hr
      exact h.insertEdge hs ht

theorem inStep_run (requests : List Request) : (run requests).InStep := by
  have hfold : ∀ σ : Session, σ.InStep → (requests.foldl Session.step σ).InStep := by
    induction requests with
    | nil => exact fun σ h => h
    | cons r requests ih => exact fun σ h => ih (σ.step r) (h.step r)
  exact hfold _ (inStep_withVertices 0)

/-- Edges are counted by their sources. -/
theorem length_flatMap_range (edges : List (Nat × Nat)) (n : Nat) :
    ((List.range n).flatMap fun v => (edges.filter (·.1 = v)).map Prod.snd).length =
      edges.countP (·.1 < n) := by
  induction n with
  | zero => simp
  | succ n ih =>
    have hsplit : edges.countP (·.1 < n + 1) = edges.countP (·.1 < n) + edges.countP (·.1 = n) := by
      clear ih
      induction edges with
      | nil => rfl
      | cons e edges ih =>
        simp only [List.countP_cons, ih, decide_eq_true_eq]
        split <;> split <;> split <;> omega
    rw [List.range_succ, List.flatMap_append, List.length_append, ih, hsplit, List.flatMap_singleton, List.length_map,
      ← List.countP_eq_length_filter]

/-- Successors are targets of noted edges. -/
theorem InStep.lt_size (h : σ.InStep) {v w : Vertex} (hw : w ∈ σ.graph.successors v) : w < σ.graph.size := by
  rw [h.successors, List.mem_map] at hw
  obtain ⟨e, he, rfl⟩ := hw
  exact (h.edges_lt e (List.mem_of_mem_filter he)).2

theorem InStep.edgeCount_eq (h : σ.InStep) : σ.graph.edgeCount = σ.edges.length := by
  have hsucc : σ.graph.successors = fun v => (σ.edges.filter (·.1 = v)).map Prod.snd := funext h.successors
  rw [Graph.edgeCount, Graph.vertices, hsucc, length_flatMap_range, List.countP_eq_length]
  exact fun e he => decide_eq_true (h.edges_lt e he).1

/-- **Graphs in use keep their edges in range, and searches ask for no more.** After any requests, met or refused, every
successor is a vertex of the graph, and its edges are those it was made with and those added since: as many, between
vertices of the graph, and in their order. An edge is refused exactly if one of its ends is not a vertex. A search looks
up nothing that is not there; it is refused exactly if its start is not a vertex or, that being one, its final vertex is
not. A query is refused exactly if both names are known and one of them stands for no vertex of the graph, whatever the
table of names. -/
theorem run_in_range (requests : List Request) :
    let σ := run requests
    (∀ v, ∀ w ∈ σ.graph.successors v, σ.graph.contains w = true) ∧
      σ.graph.edgeCount = σ.edges.length ∧
      (∀ e ∈ σ.edges, σ.graph.contains e.1 = true ∧ σ.graph.contains e.2 = true) ∧
      (∀ v, σ.graph.successors v = (σ.edges.filter (·.1 = v)).map Prod.snd) ∧
      (∀ s t, (∃ e, σ.graph.addEdge s t = .error e) ↔ σ.graph.contains s = false ∨ σ.graph.contains t = false) ∧
      (∀ s f, σ.graph.guardedAnalyze s f = σ.graph.analyze s f ∧
        ∀ e, σ.graph.analyze s f = .error e ↔ σ.graph.contains s = false ∧ e = .start s ∨
          σ.graph.contains s = true ∧ σ.graph.contains f = false ∧ e = .final f) ∧
      ∀ labels start final, σ.graph.guardedQuery labels start final = σ.graph.query labels start final ∧
        ((∃ e, σ.graph.query labels start final = .error e) ↔
          ∃ s f, labels.get? start = some s ∧ labels.get? final = some f ∧
            (σ.graph.contains s = false ∨ σ.graph.contains f = false)) := by
  intro σ
  have h : σ.InStep := inStep_run requests
  have hin (v : Vertex) : σ.graph.contains v = true ↔ v < σ.graph.size := decide_eq_true_iff
  have hout (v : Vertex) : σ.graph.contains v = false ↔ σ.graph.size ≤ v := by
    rw [← Bool.not_eq_true, hin, Nat.not_lt]
  simp only [hin, hout]
  refine ⟨fun v w => h.lt_size, h.edgeCount_eq, h.edges_lt, h.successors, fun s t => ?_,
    fun s f => ⟨Graph.guardedAnalyze_eq .., fun e => Graph.analyze_eq_error_iff⟩,
    fun labels start final => ⟨Graph.guardedQuery_eq .., ?_⟩⟩
  · simp only [Graph.addEdge_eq_error_iff]
    rw [Graph.exists_refusal_iff, or_comm]
  · simp only [Graph.query_eq_error_iff, Graph.analyze_eq_error_iff]
    constructor
    · rintro ⟨e, s, f, hs, hf, he⟩
      exact ⟨s, f, hs, hf, Graph.exists_refusal_iff.mp ⟨e, he⟩⟩
    · rintro ⟨s, f, hs, hf, hlt⟩
      obtain ⟨e, he⟩ := Graph.exists_refusal_iff.mpr hlt
      exact ⟨e, s, f, hs, hf, he⟩

end Session

end Waymark
