import Waymark.Proofs.FlowGraph
import Waymark.Proofs.Guarded.Split

/-!
# Guarded control-flow graphs

The graph of a program built function by function: first the vertices of its blocks, then block by block the edges and
the tracepoints. Every label is looked up among those of its function, every edge joins vertices that are there already,
and where a tracepoint moves, both blocks are looked up by their vertices. Whatever is not found is an error here. The
only thing that may not be found is the target of a branch, and then there is no graph from `FlowGraph.build` either
(`FlowGraph.guardedBuild_eq`). A well-formed program gives no error (`Program.WellFormed.guardedBuild_eq`).
-/

namespace Waymark

/-! ## Building a graph -/

/-- What there is of a control-flow graph while it is built. -/
structure Building where
  graph : Graph
  labels : Labels
  blocks : List BlockName
  events : List Event

/-- The vertex of a label of a function, which has to have it. -/
def lookUpVertex (base : Nat) (labels : List String) (label : String) : Except Misuse Vertex :=
  match lastIndex? label labels with
  | some i => .ok (base + i)
  | none => .error .unknownLabel

namespace Building

/-- Nothing yet. -/
def empty : Building := ⟨.empty, .empty, [], []⟩

/-- Lets a tracepoint stand for a vertex; the blocks of a move have to be there. -/
def bindName (v : Vertex) (B : Building) (name : String) : Except Misuse Building :=
  let labels := B.labels.insert name v
  match B.labels.get? name with
  | none => .ok { B with labels }
  | some u =>
    if u = v then .ok { B with labels }
    else do
      let previous ← elementAt B.blocks u
      let current ← elementAt B.blocks v
      return { B with labels, events := B.events ++ [.rebound name previous current] }

/-- Adds the edges and the tracepoints of a block. -/
def addBlock (marker : String) (vertexOf : String → Except Misuse Vertex) (B : Building) (b : Block) :
    Except Misuse Building := do
  let v ← vertexOf b.label
  let graph ← b.successors.foldlM (fun g t => do g.addEdge v (← vertexOf t)) B.graph
  (b.tracepoints marker).foldlM (bindName v) { B with graph }

/-- Adds vertices for blocks of a function. -/
def addVertices (function : String) (B : Building) (bs : List Block) : Building :=
  { B with
    graph := bs.foldl (fun g _ => g.addVertex) B.graph
    blocks := B.blocks ++ bs.map fun b => ⟨function, b.label⟩ }

/-- Adds a function. -/
def addFunction (marker : String) (B : Building) (f : Function) : Except Misuse Building :=
  f.blocks.foldlM (addBlock marker (lookUpVertex B.graph.size f.labels)) (B.addVertices f.name f.blocks)

end Building

/-- The control-flow graph of a program, built function by function. -/
def FlowGraph.guardedBuild (marker : String) (p : Program) : Except Misuse (Logged FlowGraph) := do
  let B ← p.functions.foldlM (Building.addFunction marker) .empty
  return ⟨⟨B.graph, B.labels, B.blocks⟩, B.events ++ [.built B.graph.size B.graph.edgeCount B.labels.size]⟩

/-! ## Moves of tracepoints -/

/-- Names given to vertices, in order. -/
def Labels.insertAll (l : Labels) (calls : List (String × Vertex)) : Labels :=
  calls.foldl (fun l c => l.insert c.1 c.2) l

theorem rebindings_append (l : Labels) (calls calls' : List (String × Vertex)) :
    rebindings l (calls ++ calls') = rebindings l calls ++ rebindings (l.insertAll calls) calls' := by
  induction calls generalizing l with
  | nil => rfl
  | cons c calls ih =>
    obtain ⟨name, v⟩ := c
    simp only [List.cons_append, rebindings, ih, List.append_assoc]
    rfl

/-- A move leads from a vertex that was called before to one that is called. -/
theorem lt_of_mem_rebindings {n : Nat} {l : Labels} {calls : List (String × Vertex)}
    (hl : ∀ name v, l.get? name = some v → v < n) (hcalls : ∀ c ∈ calls, c.2 < n)
    {r : Rebinding} (hr : r ∈ rebindings l calls) : r.previous < n ∧ r.current < n := by
  induction calls generalizing l with
  | nil => cases hr
  | cons c calls ih =>
    obtain ⟨name, v⟩ := c
    rw [List.forall_mem_cons] at hcalls
    rcases List.mem_append.mp hr with hr | hr
    · cases hname : l.get? name with
      | none => simp [hname] at hr
      | some u =>
        by_cases hu : u = v
        · simp [hname, hu] at hr
        · obtain rfl : r = ⟨name, u, v⟩ := by simpa [hname, hu] using hr
          exact ⟨hl name u hname, hcalls.1⟩
    · refine ih (fun m w hw => ?_) hcalls.2 hr
      rw [Labels.get?_insert] at hw
      split at hw
      · cases hw
        exact hcalls.1
      · exact hl m w hw

theorem Labels.insertAll_concat (l : Labels) (calls : List (String × Vertex)) (name : String) (v : Vertex) :
    l.insertAll (calls ++ [(name, v)]) = (l.insertAll calls).insert name v := by
  simp [insertAll]

/-- The event of a move does not depend on blocks that are added later. -/
theorem Rebinding.event?_append {blocks : List BlockName} {r : Rebinding}
    (h : r.previous < blocks.length ∧ r.current < blocks.length) (more : List BlockName) :
    r.event? (blocks ++ more) = r.event? blocks := by
  rw [event?, event?, List.getElem?_append_left h.1, List.getElem?_append_left h.2]

/-! ## What a building holds -/

/-- A building with these blocks, to which these edges and calls were added. -/
structure Building.Holds (B : Building) (blocks : List BlockName) (edges : List (Vertex × Vertex))
    (calls : List (String × Vertex)) : Prop where
  blocks_eq : B.blocks = blocks
  size : B.graph.size = blocks.length
  successors : ∀ v, B.graph.successors v = (edges.filter (·.1 = v)).map Prod.snd
  labels : B.labels = Labels.empty.insertAll calls
  events : B.events = (rebindings .empty calls).filterMap (Rebinding.event? blocks)
  edges_lt : ∀ e ∈ edges, e.1 < blocks.length ∧ e.2 < blocks.length
  calls_lt : ∀ c ∈ calls, c.2 < blocks.length

namespace Building.Holds

variable {B : Building} {blocks : List BlockName} {edges : List (Vertex × Vertex)} {calls : List (String × Vertex)}
  {v : Vertex} {marker : String}

theorem empty : Building.empty.Holds [] [] [] :=
  ⟨rfl, rfl, fun v => Graph.successors_withVertices 0 v, rfl, rfl, by simp, by simp⟩

/-- Tracepoints stand for vertices that are there. -/
theorem lt_of_get? (h : B.Holds blocks edges calls) {name : String} {u : Vertex} (hu : B.labels.get? name = some u) :
    u < blocks.length := by
  rw [h.labels] at hu
  have hget : (Labels.empty.insertAll calls).get? name = _ := Labels.get?_ofList calls name
  rw [hget] at hu
  obtain ⟨c, hc, rfl⟩ := Option.map_eq_some_iff.mp hu
  exact h.calls_lt c (List.mem_filter.mp (List.mem_of_getLast? hc)).1

/-- Both blocks of a move are found. -/
theorem bindName_eq (h : B.Holds blocks edges calls) (hv : v < blocks.length) (name : String) :
    B.bindName v name = .ok { B with
      labels := B.labels.insert name v
      events := B.events ++ (rebindings B.labels [(name, v)]).filterMap (Rebinding.event? blocks) } := by
  unfold Building.bindName
  cases hu : B.labels.get? name with
  | none => simp [rebindings, hu]
  | some u =>
    by_cases huv : u = v
    · simp [rebindings, hu, huv]
    · have hprevious := List.getElem?_eq_getElem (h.lt_of_get? hu)
      have hcurrent := List.getElem?_eq_getElem hv
      simp only [huv, if_false, h.blocks_eq, elementAt_eq_ok hprevious, elementAt_eq_ok hcurrent, ok_bind, rebindings,
        hu, List.append_nil, List.filterMap_cons, List.filterMap_nil, Rebinding.event?, hprevious, hcurrent]
      rfl

theorem bindName (h : B.Holds blocks edges calls) (hv : v < blocks.length) (name : String) :
    ∃ B', B.bindName v name = .ok B' ∧ B'.Holds blocks edges (calls ++ [(name, v)]) := by
  refine ⟨_, h.bindName_eq hv name, h.blocks_eq, h.size, h.successors, ?_, ?_, h.edges_lt, ?_⟩
  · rw [Labels.insertAll_concat, h.labels]
  · rw [rebindings_append, List.filterMap_append, h.events, h.labels]
  · exact List.forall_mem_append.mpr ⟨h.calls_lt, by simpa using hv⟩

theorem bindNames (h : B.Holds blocks edges calls) (hv : v < blocks.length) (names : List String) :
    ∃ B', names.foldlM (Building.bindName v) B = .ok B' ∧
      B'.Holds blocks edges (calls ++ names.map fun n => (n, v)) := by
  induction names generalizing B calls with
  | nil => exact ⟨B, rfl, by simpa using h⟩
  | cons name names ih =>
    obtain ⟨B', hok, h'⟩ := h.bindName hv name
    obtain ⟨B'', hok', h''⟩ := ih h'
    refine ⟨B'', ?_, by simpa using h''⟩
    rw [List.foldlM_cons, hok]
    exact hok'

theorem addEdges (h : B.Holds blocks edges calls) {es : List (Vertex × Vertex)}
    (hes : ∀ e ∈ es, e.1 < blocks.length ∧ e.2 < blocks.length) :
    ∃ g, B.graph.addEdges es = .ok g ∧ ({ B with graph := g } : Building).Holds blocks (edges ++ es) calls := by
  obtain ⟨g, hok, hsize, hsucc⟩ := B.graph.addEdges_of_lt (by rw [h.size]; exact hes)
  refine ⟨g, hok, h.blocks_eq, hsize.trans h.size, fun v => ?_, h.labels, h.events, ?_, h.calls_lt⟩
  · rw [hsucc, h.successors, List.filter_append, List.map_append]
  · exact List.forall_mem_append.mpr ⟨h.edges_lt, hes⟩

/-- New vertices change nothing for the others. -/
theorem addVertices (h : B.Holds blocks edges calls) (function : String) (bs : List Block) :
    (B.addVertices function bs).Holds (blocks ++ bs.map fun b => ⟨function, b.label⟩) edges calls := by
  have hgrow : ∀ (bs : List Block) (g : Graph), (bs.foldl (fun g _ => g.addVertex) g).size = g.size + bs.length ∧
      ∀ v, (bs.foldl (fun g _ => g.addVertex) g).successors v = g.successors v := by
    intro bs
    induction bs with
    | nil => exact fun g => ⟨rfl, fun v => rfl⟩
    | cons b bs ih =>
      intro g
      obtain ⟨hsize, hsucc⟩ := ih g.addVertex
      refine ⟨?_, fun v => (hsucc v).trans (Graph.successors_addVertex g v)⟩
      rw [List.foldl_cons, hsize, Graph.size_addVertex, List.length_cons]
      omega
  obtain ⟨hsize, hsucc⟩ := hgrow bs B.graph
  have hle : blocks.length ≤ (blocks ++ bs.map fun b => (⟨function, b.label⟩ : BlockName)).length := by simp
  refine ⟨by rw [← h.blocks_eq]; rfl, ?_, fun v => (hsucc v).trans (h.successors v), h.labels, ?_, ?_, ?_⟩
  · rw [List.length_append, List.length_map, ← h.size]
    exact hsize
  · refine h.events.trans (List.filterMap_congr fun r hr => (r.event?_append ?_ _).symm)
    exact lt_of_mem_rebindings (fun _ _ hget => by cases hget) h.calls_lt hr
  · exact fun e he => ⟨Nat.lt_of_lt_of_le (h.edges_lt e he).1 hle, Nat.lt_of_lt_of_le (h.edges_lt e he).2 hle⟩
  · exact fun c hc => Nat.lt_of_lt_of_le (h.calls_lt c hc) hle

end Building.Holds

/-! ## Blocks -/

theorem exists_lastIndex? {words : List String} {w : String} (h : w ∈ words) :
    ∃ i, lastIndex? w words = some i ∧ i < words.length := by
  induction words with
  | nil => cases h
  | cons v words ih =>
    by_cases hw : w ∈ words
    · obtain ⟨i, hi, hlt⟩ := ih hw
      exact ⟨i + 1, by rw [lastIndex?, hi], Nat.succ_lt_succ hlt⟩
    · obtain rfl := (List.mem_cons.mp h).resolve_right hw
      exact ⟨0, by simp [lastIndex?, lastIndex?_eq_none hw], Nat.succ_pos _⟩

/-- What a block adds to the graph, for a function with these labels. -/
def blockSite (marker : String) (base : Nat) (labels : List String) (b : Block) : Site :=
  let vertexOf (label : String) : Option Vertex := (lastIndex? label labels).map (base + ·)
  ⟨(vertexOf b.label).getD base, b.successors.map vertexOf, b.tracepoints marker⟩

section Blocks

variable (marker : String) (base : Nat) {labels : List String} {b : Block} {v : Vertex}

theorem exists_lookUpVertex {label : String} (h : label ∈ labels) :
    ∃ v, lookUpVertex base labels label = .ok v ∧ (lastIndex? label labels).map (base + ·) = some v ∧
      v < base + labels.length := by
  obtain ⟨i, hi, hlt⟩ := exists_lastIndex? h
  exact ⟨base + i, by rw [lookUpVertex, hi], by rw [hi]; rfl, Nat.add_lt_add_left hlt base⟩

/-- Where all targets are found, looking them up one by one adds the edges of the site. -/
theorem foldlM_addEdge_eq {ts : List String} (hts : ∀ t ∈ ts, t ∈ labels) (g : Graph) :
    ts.foldlM (fun g t => do Graph.addEdge g v (← lookUpVertex base labels t)) g =
      g.addEdges ((ts.map fun t => (lastIndex? t labels).map (base + ·)).filterMap fun t => t.map fun w => (v, w)) := by
  induction ts generalizing g with
  | nil => rfl
  | cons t ts ih =>
    rw [List.forall_mem_cons] at hts
    obtain ⟨w, hlook, hindex, -⟩ := exists_lookUpVertex base hts.1
    rw [List.foldlM_cons, hlook, ok_bind, List.map_cons, hindex]
    simp only [Graph.addEdges, List.filterMap_cons, Option.map_some, List.foldlM_cons]
    exact bind_congr fun g' => ih hts.2 g'

theorem complete_blockSite (ht : ∀ t ∈ b.successors, t ∈ labels) :
    (blockSite marker base labels b).complete = true := by
  simp only [blockSite, Site.complete, List.all_map, List.all_eq_true]
  intro t hmem
  obtain ⟨w, -, hindex, -⟩ := exists_lookUpVertex base (ht t hmem)
  simp [hindex]

theorem edges_blockSite_lt (hb : b.label ∈ labels) (ht : ∀ t ∈ b.successors, t ∈ labels) :
    (blockSite marker base labels b).vertex < base + labels.length ∧
      ∀ e ∈ (blockSite marker base labels b).edges, e.1 < base + labels.length ∧ e.2 < base + labels.length := by
  obtain ⟨v, -, hv, hlt⟩ := exists_lookUpVertex base hb
  have hvertex : (blockSite marker base labels b).vertex = v := by simp [blockSite, hv]
  refine ⟨hvertex ▸ hlt, fun e he => ?_⟩
  obtain ⟨w?, hw?, hew⟩ := List.mem_filterMap.mp he
  obtain ⟨t, hmem, rfl⟩ := List.mem_map.mp hw?
  obtain ⟨w, -, hw, hwlt⟩ := exists_lookUpVertex base (ht t hmem)
  rw [hw, hvertex] at hew
  cases hew
  exact ⟨hlt, hwlt⟩

end Blocks

/-- Every branch of a function leads to one of its labels. -/
def Function.TargetsFound (f : Function) : Prop := ∀ b ∈ f.blocks, ∀ t ∈ b.successors, t ∈ f.labels

instance (f : Function) : Decidable f.TargetsFound :=
  inferInstanceAs (Decidable (∀ b ∈ f.blocks, ∀ t ∈ b.successors, t ∈ f.labels))

theorem Function.WellFormed.targetsFound {f : Function} (h : f.WellFormed) : f.TargetsFound :=
  fun b hb => (h.blocks b hb).targets

namespace Building.Holds

variable {B : Building} {blocks : List BlockName} {edges : List (Vertex × Vertex)} {calls : List (String × Vertex)}
  {marker : String} {base : Nat} {labels : List String} {b : Block} {f : Function}

theorem addBlock (h : B.Holds blocks edges calls) (hlen : base + labels.length ≤ blocks.length) (hb : b.label ∈ labels)
    (ht : ∀ t ∈ b.successors, t ∈ labels) :
    ∃ B', B.addBlock marker (lookUpVertex base labels) b = .ok B' ∧
      B'.Holds blocks (edges ++ (blockSite marker base labels b).edges)
        (calls ++ (blockSite marker base labels b).calls) := by
  obtain ⟨v, hlook, hindex, hlt⟩ := exists_lookUpVertex base hb
  have hvertex : (blockSite marker base labels b).vertex = v := by simp [blockSite, hindex]
  have hedges : ∀ e ∈ (blockSite marker base labels b).edges, e.1 < blocks.length ∧ e.2 < blocks.length := fun e he =>
    have he := (edges_blockSite_lt marker base hb ht).2 e he
    ⟨Nat.lt_of_lt_of_le he.1 hlen, Nat.lt_of_lt_of_le he.2 hlen⟩
  obtain ⟨g, hg, h'⟩ := h.addEdges hedges
  obtain ⟨B', hB', h''⟩ := h'.bindNames (Nat.lt_of_lt_of_le hlt hlen) (b.tracepoints marker)
  have hcalls : (blockSite marker base labels b).calls = (b.tracepoints marker).map fun n => (n, v) := by
    rw [Site.calls, hvertex]
    rfl
  refine ⟨B', ?_, hcalls ▸ h''⟩
  rw [Site.edges, hvertex] at hg
  have hfold := (foldlM_addEdge_eq base ht B.graph).trans hg
  simp only [Building.addBlock, hlook, ok_bind, hfold]
  exact hB'

/-- Blocks of a function are added one after the other. -/
theorem addBlocks (hlen : base + labels.length ≤ blocks.length) {bs : List Block}
    (hbs : ∀ b ∈ bs, b.label ∈ labels ∧ ∀ t ∈ b.successors, t ∈ labels) (h : B.Holds blocks edges calls) :
    ∃ B', bs.foldlM (Building.addBlock marker (lookUpVertex base labels)) B = .ok B' ∧
      B'.Holds blocks (edges ++ (bs.map (blockSite marker base labels)).flatMap Site.edges)
        (calls ++ (bs.map (blockSite marker base labels)).flatMap Site.calls) := by
  induction bs generalizing B edges calls with
  | nil => exact ⟨B, rfl, by simpa using h⟩
  | cons b bs ih =>
    rw [List.forall_mem_cons] at hbs
    obtain ⟨⟨hb, ht⟩, hbs⟩ := hbs
    obtain ⟨B', hok, h'⟩ := h.addBlock hlen hb ht
    obtain ⟨B'', hok', h''⟩ := ih hbs h'
    refine ⟨B'', ?_, by simpa using h''⟩
    rw [List.foldlM_cons, hok]
    exact hok'

/-- A function whose targets are found is added to any building. -/
theorem addFunction (h : B.Holds blocks edges calls) (hf : f.TargetsFound) :
    ∃ B', B.addFunction marker f = .ok B' ∧
      B'.Holds (blocks ++ f.blocks.map fun b => ⟨f.name, b.label⟩)
        (edges ++ (f.sites marker blocks.length).flatMap Site.edges)
        (calls ++ (f.sites marker blocks.length).flatMap Site.calls) := by
  have hlen : blocks.length + f.labels.length ≤
      (blocks ++ f.blocks.map fun b => (⟨f.name, b.label⟩ : BlockName)).length := by
    simp [Function.labels]
  have hbs : ∀ b ∈ f.blocks, b.label ∈ f.labels ∧ ∀ t ∈ b.successors, t ∈ f.labels := fun b hb =>
    ⟨List.mem_map_of_mem hb, hf b hb⟩
  rw [Building.addFunction, h.size]
  exact addBlocks hlen hbs (h.addVertices f.name f.blocks)

theorem addFunctions {fs : List Function} (hfs : ∀ f ∈ fs, f.TargetsFound) (h : B.Holds blocks edges calls) :
    ∃ B', fs.foldlM (Building.addFunction marker) B = .ok B' ∧
      B'.Holds (blocks ++ fs.flatMap fun f => f.blocks.map fun b => ⟨f.name, b.label⟩)
        (edges ++ (sitesFrom marker blocks.length fs).flatMap Site.edges)
        (calls ++ (sitesFrom marker blocks.length fs).flatMap Site.calls) := by
  induction fs generalizing B blocks edges calls with
  | nil => exact ⟨B, rfl, by simpa [sitesFrom] using h⟩
  | cons f fs ih =>
    rw [List.forall_mem_cons] at hfs
    obtain ⟨B', hok, h'⟩ := h.addFunction hfs.1
    obtain ⟨B'', hok', h''⟩ := ih hfs.2 h'
    refine ⟨B'', ?_, by simpa [sitesFrom] using h''⟩
    rw [List.foldlM_cons, hok]
    exact hok'

end Building.Holds

/-! ## Whole programs -/

/-- A graph is told by its size and its successors. -/
theorem Graph.ext_successors {g g' : Graph} (hsize : g.size = g'.size) (hsucc : ∀ v, g.successors v = g'.successors v) :
    g = g' := by
  obtain ⟨a, ha⟩ := g
  obtain ⟨a', ha'⟩ := g'
  congr 1
  refine Array.ext hsize fun v hv hv' => ?_
  simpa [successors, Array.getD, hv, hv'] using hsucc v

theorem complete_of_mem_sitesFrom {marker : String} {base : Nat} {fs : List Function}
    (hfs : ∀ f ∈ fs, f.TargetsFound) :
    ∀ s ∈ sitesFrom marker base fs, s.complete = true := by
  induction fs generalizing base with
  | nil => simp [sitesFrom]
  | cons f fs ih =>
    rw [List.forall_mem_cons] at hfs
    refine List.forall_mem_append.mpr ⟨fun s hs => ?_, ih hfs.2⟩
    obtain ⟨b, hb, rfl⟩ := List.mem_map.mp hs
    exact complete_blockSite marker base (hfs.1 b hb)

/-- Where all targets are found, so is everything else, and the graph holds what the sites add. -/
theorem exists_building {p : Program} (h : ∀ f ∈ p.functions, f.TargetsFound) (marker : String) :
    ∃ B : Building, p.functions.foldlM (Building.addFunction marker) .empty = .ok B ∧
      B.Holds p.blockNames ((p.sites marker).flatMap Site.edges) ((p.sites marker).flatMap Site.calls) ∧
      FlowGraph.build marker p = ⟨.ok ⟨B.graph, B.labels, B.blocks⟩,
        B.events ++ [.built B.graph.size B.graph.edgeCount B.labels.size]⟩ := by
  obtain ⟨B, hok, hB⟩ : ∃ B, p.functions.foldlM (Building.addFunction marker) .empty = .ok B ∧
      B.Holds p.blockNames ((p.sites marker).flatMap Site.edges) ((p.sites marker).flatMap Site.calls) :=
    Building.Holds.empty.addFunctions h
  obtain ⟨g, hg, hsize, hsucc⟩ :
      ∃ g, Graph.ofEdges p.blockNames.length ((p.sites marker).flatMap Site.edges) = .ok g ∧ _ :=
    (Graph.withVertices p.blockNames.length).addEdges_of_lt fun e he => by simpa using hB.edges_lt e he
  obtain rfl : g = B.graph := by
    refine Graph.ext_successors ?_ fun v => ?_
    · rw [hsize, Graph.size_withVertices, hB.size]
    · rw [hsucc, hB.successors, Graph.successors_withVertices, List.nil_append]
  have hall : (p.sites marker).takeWhile Site.complete = p.sites marker :=
    List.takeWhile_eq_self_iff.mpr (complete_of_mem_sitesFrom h)
  refine ⟨B, hok, hB, ?_⟩
  rw [hB.labels, hB.blocks_eq, hB.events, FlowGraph.build]
  simp only [hall, Nat.lt_irrefl, if_false, hg]
  rfl

theorem guardedBuild_of_targetsFound {p : Program} (h : ∀ f ∈ p.functions, f.TargetsFound) (marker : String) :
    ∃ g, FlowGraph.guardedBuild marker p = .ok ⟨g, (FlowGraph.build marker p).events⟩ ∧
      (FlowGraph.build marker p).value = .ok g := by
  obtain ⟨B, hok, -, hbuild⟩ := exists_building h marker
  refine ⟨⟨B.graph, B.labels, B.blocks⟩, ?_, by rw [hbuild]⟩
  rw [hbuild]
  simp only [FlowGraph.guardedBuild, hok, ok_bind]
  rfl

/-- **Building a graph looks up nothing that is not there**: in a well-formed program all labels are found, edges join
vertices that were added before, and every tracepoint that moves does so between known blocks. -/
theorem Program.WellFormed.guardedBuild_eq {p : Program} (h : p.WellFormed) (marker : String) :
    ∃ g, FlowGraph.guardedBuild marker p = .ok ⟨g, (FlowGraph.build marker p).events⟩ ∧
      (FlowGraph.build marker p).value = .ok g :=
  guardedBuild_of_targetsFound (fun f hf => (h.functions f hf).targetsFound) marker

/-! ## Targets that are not found -/

/-- Edges are added up to the first target that is not found. -/
theorem foldlM_addEdge_eq_error {base : Nat} {labels ts : List String} {v : Vertex} {g : Graph}
    (hts : ∃ t ∈ ts, t ∉ labels) (hv : v < g.size) (hlen : base + labels.length ≤ g.size) :
    ts.foldlM (fun g t => do Graph.addEdge g v (← lookUpVertex base labels t)) g = .error .unknownLabel := by
  induction ts generalizing g with
  | nil =>
    obtain ⟨t, ht, -⟩ := hts
    cases ht
  | cons t ts ih =>
    rw [List.foldlM_cons]
    by_cases ht : t ∈ labels
    · obtain ⟨w, hlook, -, hw⟩ := exists_lookUpVertex base ht
      have hwg : w < g.size := Nat.lt_of_lt_of_le hw hlen
      have hadd : g.addEdge v w = .ok (g.insertEdge v w hwg) := by simp [Graph.addEdge, hv, hwg]
      obtain ⟨u, hu, hnot⟩ := hts
      have hmem : u ∈ ts := (List.mem_cons.mp hu).resolve_left fun heq => hnot (heq ▸ ht)
      rw [hlook, ok_bind, hadd, ok_bind]
      exact ih ⟨u, hmem, hnot⟩ (by simpa using hv) (by simpa using hlen)
    · rw [lookUpVertex, lastIndex?_eq_none ht]
      rfl

namespace Building.Holds

variable {B : Building} {blocks : List BlockName} {edges : List (Vertex × Vertex)} {calls : List (String × Vertex)}
  {marker : String} {base : Nat} {labels : List String} {b : Block} {f : Function}

theorem addBlock_eq_error (h : B.Holds blocks edges calls) (hlen : base + labels.length ≤ blocks.length)
    (hb : b.label ∈ labels) (ht : ∃ t ∈ b.successors, t ∉ labels) :
    B.addBlock marker (lookUpVertex base labels) b = .error .unknownLabel := by
  obtain ⟨v, hlook, -, hlt⟩ := exists_lookUpVertex base hb
  have hlen' : base + labels.length ≤ B.graph.size := by rw [h.size]; exact hlen
  simp only [Building.addBlock, hlook, ok_bind,
    foldlM_addEdge_eq_error ht (Nat.lt_of_lt_of_le hlt hlen') hlen']
  rfl

/-- Blocks are added up to the first one with a target that is not found. -/
theorem addBlocks_eq_error (h : B.Holds blocks edges calls) (hlen : base + labels.length ≤ blocks.length)
    {bs : List Block} (hbs : ∀ b ∈ bs, b.label ∈ labels) (ht : ∃ b ∈ bs, ∃ t ∈ b.successors, t ∉ labels) :
    bs.foldlM (Building.addBlock marker (lookUpVertex base labels)) B = .error .unknownLabel := by
  induction bs generalizing B edges calls with
  | nil =>
    obtain ⟨b, hb, -⟩ := ht
    cases hb
  | cons b bs ih =>
    rw [List.forall_mem_cons] at hbs
    rw [List.foldlM_cons]
    by_cases hmiss : ∃ t ∈ b.successors, t ∉ labels
    · rw [h.addBlock_eq_error hlen hbs.1 hmiss]
      rfl
    · obtain ⟨c, hc, hmiss'⟩ := ht
      have hmem : c ∈ bs := (List.mem_cons.mp hc).resolve_left fun heq => hmiss (heq ▸ hmiss')
      obtain ⟨B', hok, h'⟩ := h.addBlock hlen hbs.1 fun t htb => by_contra fun hnot => hmiss ⟨t, htb, hnot⟩
      rw [hok, ok_bind]
      exact ih h' hbs.2 ⟨c, hmem, hmiss'⟩

theorem addFunction_eq_error (h : B.Holds blocks edges calls) (hf : ¬f.TargetsFound) :
    B.addFunction marker f = .error .unknownLabel := by
  have hlen : blocks.length + f.labels.length ≤
      (blocks ++ f.blocks.map fun b => (⟨f.name, b.label⟩ : BlockName)).length := by
    simp [Function.labels]
  have hmiss : ∃ b ∈ f.blocks, ∃ t ∈ b.successors, t ∉ f.labels := by
    simpa [Function.TargetsFound] using hf
  rw [Building.addFunction, h.size]
  exact (h.addVertices f.name f.blocks).addBlocks_eq_error hlen (fun b hb => List.mem_map_of_mem hb) hmiss

theorem addFunctions_eq_error {fs : List Function} (h : B.Holds blocks edges calls) (hfs : ∃ f ∈ fs, ¬f.TargetsFound) :
    fs.foldlM (Building.addFunction marker) B = .error .unknownLabel := by
  induction fs generalizing B blocks edges calls with
  | nil =>
    obtain ⟨f, hf, -⟩ := hfs
    cases hf
  | cons f fs ih =>
    rw [List.foldlM_cons]
    by_cases hf : f.TargetsFound
    · obtain ⟨k, hk, hmiss⟩ := hfs
      have hmem : k ∈ fs := (List.mem_cons.mp hk).resolve_left fun heq => hmiss (heq ▸ hf)
      obtain ⟨B', hok, h'⟩ := h.addFunction hf
      rw [hok, ok_bind]
      exact ih h' ⟨k, hmem, hmiss⟩
    · rw [h.addFunction_eq_error hf]
      rfl

end Building.Holds

/-- A target that is not found leaves a site incomplete. -/
theorem exists_incomplete_site (marker : String) (base : Nat) {fs : List Function} {f : Function} (hf : f ∈ fs)
    (hmiss : ¬f.TargetsFound) : ∃ s ∈ sitesFrom marker base fs, s.complete = false := by
  induction fs generalizing base with
  | nil => cases hf
  | cons k fs ih =>
    rcases List.mem_cons.mp hf with rfl | hf
    · obtain ⟨b, hb, t, ht, hnot⟩ : ∃ b ∈ f.blocks, ∃ t ∈ b.successors, t ∉ f.labels := by
        simpa [Function.TargetsFound] using hmiss
      refine ⟨blockSite marker base f.labels b, List.mem_append_left _ (List.mem_map_of_mem hb), ?_⟩
      rw [Site.complete, List.all_eq_false]
      exact ⟨none, List.mem_map.mpr ⟨t, ht, by rw [lastIndex?_eq_none hnot]; rfl⟩, by simp⟩
    · obtain ⟨s, hs, hincomplete⟩ := ih (base + k.blocks.length) hf
      exact ⟨s, List.mem_append_right _ hs, hincomplete⟩

namespace FlowGraph

/-- Where a target is not found there is no graph. -/
theorem build_of_not_targetsFound {p : Program} (marker : String) (h : ∃ f ∈ p.functions, ¬f.TargetsFound) :
    (build marker p).value = .error .unknownLabel := by
  obtain ⟨f, hf, hmiss⟩ := h
  obtain ⟨s, hs, hincomplete⟩ := exists_incomplete_site marker 0 hf hmiss
  have hlt : ((p.sites marker).takeWhile Site.complete).length < (p.sites marker).length := by
    refine Nat.lt_of_le_of_ne (List.takeWhile_prefix _).length_le fun hlen => ?_
    have hself := (List.takeWhile_prefix Site.complete).eq_of_length hlen
    have hcomplete : s.complete = true := List.takeWhile_eq_self_iff.mp hself s hs
    rw [hincomplete] at hcomplete
    cases hcomplete
  rw [build]
  simp only [hlt, if_true]

/-- **Building a graph function by function** comes to the same, for every program: to the same graph with the same
events, or to the same error. -/
theorem guardedBuild_eq (marker : String) (p : Program) :
    guardedBuild marker p = (build marker p).value.map fun g => ⟨g, (build marker p).events⟩ := by
  by_cases h : ∀ f ∈ p.functions, f.TargetsFound
  · obtain ⟨g, hguarded, hbuild⟩ := guardedBuild_of_targetsFound h marker
    rw [hguarded, hbuild]
    rfl
  · have hmiss : ∃ f ∈ p.functions, ¬f.TargetsFound := by simpa using h
    rw [guardedBuild, Building.Holds.empty.addFunctions_eq_error hmiss, build_of_not_targetsFound marker hmiss]
    rfl

end FlowGraph

/-- A target without a block is missed. -/
example : FlowGraph.guardedBuild "t_" ⟨[⟨"f", [⟨"a", [.br "b"]⟩]⟩]⟩ = .error .unknownLabel := rfl

end Waymark
