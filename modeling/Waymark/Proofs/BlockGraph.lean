import Waymark.Graph.Walk
import Waymark.Proofs.Guarded.FlowGraph
import Waymark.Proofs.Program.Source

/-!
# The control-flow graph of any program

The blocks of a program are numbered function by function (`Program.blockVertex`), and these numbers are the vertices of
its graph. A label stands for the last block of its function that bears it (`Function.bearer?`), both where a branch
goes to and where it starts. So a block whose label is borne again later has no edges; they are found at the last
bearer, with those of all others (`FlowGraph.Depicts`).

A function adds edges among its own blocks only. The edges of one block are therefore found by looking at the sites of
its function alone (`Program.filter_sites`), and no path leaves a function. Where a branch names a label that its
function does not have, there is no graph, and nowhere else (`FlowGraph.build_depicts`).
-/

namespace Waymark

/-! ## The last block with a label -/

/-- The last place of a word, looked for among all places. -/
theorem lastIndex?_eq_getLast? (word : String) (words : List String) :
    lastIndex? word words = ((List.range words.length).filter fun j => words[j]? = some word).getLast? := by
  induction words with
  | nil => rfl
  | cons w words ih =>
    rw [lastIndex?, ih, List.length_cons, List.range_succ_eq_map, List.filter_cons, List.filter_map]
    have hrest : (fun j => decide ((w :: words)[j]? = some word)) ∘ Nat.succ =
        fun j => decide (words[j]? = some word) := by
      funext j
      simp
    rw [hrest]
    cases hlast : ((List.range words.length).filter fun j => words[j]? = some word).getLast? with
    | none =>
      rw [List.getLast?_eq_none_iff] at hlast
      by_cases hw : w = word
      · simp [hlast, hw]
      · simp [hlast, hw]
    | some k =>
      by_cases hw : w = word
      · simp [hw, List.getLast?_cons, hlast]
      · simp [hw, hlast]

/-- The number of the last block of a function that bears a label. -/
def Function.bearer? (f : Function) (label : String) : Option Nat :=
  ((List.range f.blocks.length).filter fun j => (f.blocks[j]?).map (·.label) = some label).getLast?

namespace Function

variable {f : Function} {b : Block} {label : String} {j : Nat}

theorem lastIndex?_labels (f : Function) (label : String) : lastIndex? label f.labels = f.bearer? label := by
  rw [lastIndex?_eq_getLast?, bearer?, labels, List.length_map]
  simp only [List.getElem?_map]

theorem bearer?_lt (h : f.bearer? label = some j) : j < f.blocks.length :=
  List.mem_range.mp (List.mem_filter.mp (List.mem_of_getLast? h)).1

theorem exists_bearer? (hb : b ∈ f.blocks) : ∃ j, f.bearer? b.label = some j := by
  have hmem : b.label ∈ f.labels := List.mem_map_of_mem hb
  obtain ⟨j, hj, -⟩ := exists_lastIndex? hmem
  exact ⟨j, by rw [← lastIndex?_labels, hj]⟩

/-- In a well-formed function a label is borne once. -/
theorem WellFormed.bearer?_eq (h : f.WellFormed) (hb : f.blocks[j]? = some b) : f.bearer? b.label = some j := by
  rw [← lastIndex?_labels]
  exact lastIndex?_of_nodup h.labels (by rw [getElem?_labels, hb]; rfl)

theorem WellFormed.bearer?_of_mem (h : f.WellFormed) (hl : label ∈ f.labels) :
    f.bearer? label = some (f.labels.idxOf label) := by
  obtain ⟨b, hb, rfl⟩ := getElem?_idxOf_of_mem hl
  exact h.bearer?_eq hb

/-- In a well-formed function a block bears its label alone. -/
theorem WellFormed.filter_bearer? (h : f.WellFormed) (hb : f.blocks[j]? = some b) :
    (f.blocks.filter fun c => f.bearer? c.label = some j) = [b] := by
  have hlabel : ∀ c ∈ f.blocks, f.bearer? c.label = some j ↔ c = b := by
    intro c hc
    obtain ⟨k, hk⟩ := List.mem_iff_getElem?.mp hc
    rw [h.bearer?_eq hk, Option.some.injEq]
    constructor
    · rintro rfl
      exact Option.some.inj (hk.symm.trans hb)
    · rintro rfl
      rw [← h.idxOf_label hk, ← h.idxOf_label hb]
  have hnodup : f.blocks.Nodup := List.Nodup.of_map _ h.labels
  have hmem : b ∈ f.blocks := List.mem_of_getElem? hb
  calc (f.blocks.filter fun c => f.bearer? c.label = some j)
      = f.blocks.filter (· == b) := List.filter_congr fun c hc => by simp only [hlabel c hc]; rfl
    _ = List.replicate (f.blocks.count b) b := List.filter_beq b
    _ = [b] := by rw [List.count_eq_one_of_mem hnodup hmem]; rfl

end Function

/-! ## Numbers of blocks -/

namespace Program

variable {p : Program} {f f' : Function} {b b' : Block} {i k v : Nat} {q r : Position} {marker : String}

/-- The number of blocks in the functions before number `i`. -/
def base (p : Program) (i : Nat) : Nat := ((p.functions.take i).flatMap (·.blocks)).length

/-- The number of a block, those of the functions before it counted first. -/
def blockVertex (p : Program) (q : Position) : Nat := p.base q.function + q.block

theorem base_succ (hf : p.functions[i]? = some f) : p.base (i + 1) = p.base i + f.blocks.length := by
  rw [base, base, List.take_add_one, hf, List.flatMap_append, List.length_append]
  simp

/-- The blocks of a function are all counted before those of a later one. -/
theorem base_succ_le (p : Program) (h : i < k) : p.base (i + 1) ≤ p.base k := by
  have hle : i + 1 ≤ k := h
  obtain ⟨more, hmore⟩ := List.take_prefix_take_left (l := p.functions) hle
  rw [base, base, ← hmore, List.flatMap_append, List.length_append]
  omega

theorem base_le_blockCount (p : Program) (i : Nat) : p.base i ≤ p.blockCount := by
  obtain ⟨more, hmore⟩ := List.take_prefix i p.functions
  rw [base, blockCount]
  conv => rhs; rw [← hmore, List.flatMap_append, List.length_append]
  omega

theorem At.block_lt (h : p.At q f b) : q.block < f.blocks.length := (List.getElem?_eq_some_iff.mp h.2).1

theorem At.blockVertex_lt (h : p.At q f b) : p.blockVertex q < p.base (q.function + 1) := by
  have := h.block_lt
  rw [base_succ h.1, blockVertex]
  omega

/-- Blocks are numbered in the order of the text. -/
theorem At.blockVertex_lt_iff (hq : p.At q f b) (hr : p.At r f' b') :
    p.blockVertex q < p.blockVertex r ↔ q.function < r.function ∨ q.function = r.function ∧ q.block < r.block := by
  have hltq := hq.blockVertex_lt
  have hltr := hr.blockVertex_lt
  rcases Nat.lt_trichotomy q.function r.function with hlt | heq | hgt
  · have := p.base_succ_le hlt
    simp only [blockVertex] at *
    omega
  · simp only [blockVertex, heq, Nat.lt_irrefl, true_and, false_or, Nat.add_lt_add_iff_left]
  · have := p.base_succ_le hgt
    simp only [blockVertex] at *
    omega

/-- A block whose number lies in the range of a function is one of its blocks. -/
theorem At.function_eq (h : p.At q f b) (hle : p.base i ≤ p.blockVertex q) (hlt : p.blockVertex q < p.base (i + 1)) :
    q.function = i := by
  have hq := h.blockVertex_lt
  rcases Nat.lt_trichotomy q.function i with hqi | heq | hiq
  · have := p.base_succ_le hqi
    omega
  · exact heq
  · have := p.base_succ_le hiq
    simp only [blockVertex] at hlt
    omega

/-- Every number below that of all blocks is the number of one. -/
theorem exists_blockVertex_eq (hv : v < p.blockCount) : ∃ q f b, p.At q f b ∧ p.blockVertex q = v := by
  have hlast : v < p.base p.functions.length := by rwa [base, List.take_length]
  -- the first function that ends behind `v` holds it
  have hex : ∃ i, v < p.base i := ⟨_, hlast⟩
  obtain ⟨i, hi⟩ : ∃ i, Nat.find hex = i + 1 := Nat.exists_eq_succ_of_ne_zero fun hzero => by
    have := Nat.find_spec hex
    rw [hzero] at this
    simp [base] at this
  have hlt : v < p.base (i + 1) := hi ▸ Nat.find_spec hex
  have hle : p.base i ≤ v := Nat.not_lt.mp (Nat.find_min hex (by omega))
  have hil : i < p.functions.length := by
    have := Nat.find_min' hex hlast
    omega
  have hf : p.functions[i]? = some p.functions[i] := List.getElem?_eq_getElem hil
  rw [base_succ hf] at hlt
  have hb : v - p.base i < p.functions[i].blocks.length := by omega
  refine ⟨⟨i, v - p.base i, 0⟩, p.functions[i], p.functions[i].blocks[v - p.base i],
    ⟨hf, List.getElem?_eq_getElem hb⟩, ?_⟩
  exact Nat.add_sub_of_le hle

theorem At.blockVertex_lt_blockCount (h : p.At q f b) : p.blockVertex q < p.blockCount :=
  Nat.lt_of_lt_of_le h.blockVertex_lt (p.base_le_blockCount _)

/-- The functions before one, itself, and those behind it. -/
theorem functions_eq (hf : p.functions[i]? = some f) :
    p.functions = p.functions.take i ++ f :: p.functions.drop (i + 1) := by
  have hdrop : p.functions.drop i = f :: p.functions.drop (i + 1) := by
    rw [List.drop_eq_getElem?_toList_append, hf]
    rfl
  rw [← hdrop, List.take_append_drop]

/-- The names of blocks are listed by their numbers. -/
theorem At.getElem?_blockNames (h : p.At q f b) : p.blockNames[p.blockVertex q]? = some ⟨f.name, b.label⟩ := by
  have hlen : ((p.functions.take q.function).flatMap fun f => f.blocks.map fun b =>
      (⟨f.name, b.label⟩ : BlockName)).length = p.base q.function := by
    simp [base, List.length_flatMap]
  have hblock : q.block < (f.blocks.map fun b => (⟨f.name, b.label⟩ : BlockName)).length := by
    simpa using h.block_lt
  rw [blockNames, functions_eq h.1, List.flatMap_append, List.flatMap_cons, blockVertex, ← hlen,
    List.getElem?_append_right (Nat.le_add_right _ _), Nat.add_sub_cancel_left, List.getElem?_append_left hblock,
    List.getElem?_map, h.2]
  rfl

/-! ## The sites of one function -/

theorem sitesFrom_append (marker : String) (base : Nat) (fs gs : List Function) :
    sitesFrom marker base (fs ++ gs) =
      sitesFrom marker base fs ++ sitesFrom marker (base + (fs.flatMap (·.blocks)).length) gs := by
  induction fs generalizing base with
  | nil => rfl
  | cons f fs ih => simp [sitesFrom, ih, Nat.add_assoc]

/-- The site of a block stands at the last bearer of its label. -/
theorem vertex_blockSite (marker : String) (base : Nat) (hb : b ∈ f.blocks) :
    ∃ j, f.bearer? b.label = some j ∧ (blockSite marker base f.labels b).vertex = base + j := by
  obtain ⟨j, hj⟩ := Function.exists_bearer? hb
  refine ⟨j, hj, ?_⟩
  rw [← Function.lastIndex?_labels] at hj
  simp [blockSite, hj]

/-- The sites of functions stand among their blocks. -/
theorem vertex_of_mem_sitesFrom {base : Nat} {fs : List Function} {s : Site} (hs : s ∈ sitesFrom marker base fs) :
    base ≤ s.vertex ∧ s.vertex < base + (fs.flatMap (·.blocks)).length := by
  induction fs generalizing base with
  | nil => cases hs
  | cons f fs ih =>
    rw [List.flatMap_cons, List.length_append]
    rcases List.mem_append.mp hs with hs | hs
    · obtain ⟨b, hb, rfl⟩ := List.mem_map.mp hs
      obtain ⟨j, hj, hvertex⟩ := vertex_blockSite marker base hb
      have hlt : (blockSite marker base f.labels b).vertex < base + f.blocks.length :=
        hvertex ▸ Nat.add_lt_add_left (Function.bearer?_lt hj) base
      exact ⟨hvertex ▸ Nat.le_add_right base j, Nat.lt_of_lt_of_le hlt (by omega)⟩
    · obtain ⟨hle, hlt⟩ := ih hs
      exact ⟨Nat.le_trans (Nat.le_add_right _ _) hle, by rwa [Nat.add_assoc] at hlt⟩

/-- The edges of sites that start at a vertex are those of the sites that stand there. -/
theorem filter_edges (sites : List Site) (v : Vertex) :
    (sites.flatMap Site.edges).filter (·.1 = v) = (sites.filter (·.vertex = v)).flatMap Site.edges := by
  have hone : ∀ s : Site, s.edges.filter (·.1 = v) = if s.vertex = v then s.edges else [] := by
    intro s
    have hsource : ∀ e ∈ s.edges, e.1 = s.vertex := by
      intro e he
      obtain ⟨w?, -, hw⟩ := List.mem_filterMap.mp he
      obtain ⟨w, -, rfl⟩ := Option.map_eq_some_iff.mp hw
      rfl
    split
    next h => exact List.filter_eq_self.mpr fun e he => by simp [hsource e he, h]
    next h => exact List.filter_eq_nil_iff.mpr fun e he => by simp [hsource e he, h]
  induction sites with
  | nil => rfl
  | cons s sites ih =>
    rw [List.flatMap_cons, List.filter_append, ih, hone, List.filter_cons]
    by_cases h : s.vertex = v
    · simp [h]
    · simp [h]

/-- **The edges of a block** are found at the sites of its function. -/
theorem filter_sites (hf : p.functions[i]? = some f) (hle : p.base i ≤ v) (hlt : v < p.base (i + 1)) :
    (p.sites marker).filter (·.vertex = v) = (f.sites marker (p.base i)).filter (·.vertex = v) := by
  have hbefore : (sitesFrom marker 0 (p.functions.take i)).filter (·.vertex = v) = [] := by
    refine List.filter_eq_nil_iff.mpr fun s hs => ?_
    have hs : s.vertex < 0 + p.base i := (vertex_of_mem_sitesFrom hs).2
    rw [Nat.zero_add] at hs
    simpa using (Nat.lt_of_lt_of_le hs hle).ne
  have hbehind : (sitesFrom marker (p.base (i + 1)) (p.functions.drop (i + 1))).filter (·.vertex = v) = [] := by
    refine List.filter_eq_nil_iff.mpr fun s hs => ?_
    simpa using (Nat.lt_of_lt_of_le hlt (vertex_of_mem_sitesFrom hs).1).ne'
  have hsites : p.sites marker = sitesFrom marker 0 (p.functions.take i) ++ (f.sites marker (p.base i) ++
      sitesFrom marker (p.base (i + 1)) (p.functions.drop (i + 1))) := by
    rw [sites, base_succ hf]
    conv => lhs; rw [functions_eq hf, sitesFrom_append, Nat.zero_add]
    rfl
  rw [hsites, List.filter_append, List.filter_append, hbefore, hbehind, List.nil_append, List.append_nil]

end Program

/-! ## The whole graph -/

/-- The targets of a site are those of its edges, if all were found. -/
theorem Site.map_edges {s : Site} (h : s.complete = true) : (s.edges.map fun e => some e.2) = s.targets := by
  have hsome : ∀ t ∈ s.targets, t.isSome = true := List.all_eq_true.mp h
  have hedges : ∀ ts : List (Option Vertex), (∀ t ∈ ts, t.isSome = true) →
      ((ts.filterMap fun t => t.map fun w => (s.vertex, w)).map fun e => some e.2) = ts := by
    intro ts hts
    induction ts with
    | nil => rfl
    | cons t ts ih =>
      rw [List.forall_mem_cons] at hts
      obtain ⟨w, rfl⟩ := Option.isSome_iff_exists.mp hts.1
      rw [List.filterMap_cons, Option.map_some, List.map_cons, ih hts.2]
  exact hedges s.targets hsome

namespace FlowGraph

/-- A graph has the blocks of a program for its vertices, in the order of the text, and edges where control goes: the
edges of the vertex with the number `j` in its function are those of all blocks whose label it bears last, in their
order, and each leads to the last bearer of the label that it names. -/
structure Depicts (p : Program) (g : FlowGraph) : Prop where
  blocks : g.blocks.length = g.graph.size
  vertices : ∀ v, v < g.graph.size ↔ ∃ q f b, p.At q f b ∧ p.blockVertex q = v
  order : ∀ {q r f f' b b'}, p.At q f b → p.At r f' b' →
    (p.blockVertex q < p.blockVertex r ↔ q.function < r.function ∨ q.function = r.function ∧ q.block < r.block)
  name : ∀ {q f b}, p.At q f b → g.blocks[p.blockVertex q]? = some ⟨f.name, b.label⟩
  successors : ∀ {q f b}, p.At q f b →
    (g.graph.successors (p.blockVertex q)).map some =
      (f.blocks.filter fun c => f.bearer? c.label = some q.block).flatMap fun c =>
        c.successors.map fun t => (f.bearer? t).map (p.base q.function + ·)

variable {marker : String} {p : Program} {g : FlowGraph} {f f' : Function} {b b' : Block} {q r : Position}

/-- The successors of a vertex, told by the blocks of its function. -/
theorem map_some_successors (h : ∀ f ∈ p.functions, f.TargetsFound)
    (hsucc : ∀ v, g.graph.successors v = (((p.sites marker).flatMap Site.edges).filter (·.1 = v)).map Prod.snd)
    (hq : p.At q f b) :
    (g.graph.successors (p.blockVertex q)).map some =
      (f.blocks.filter fun c => f.bearer? c.label = some q.block).flatMap fun c =>
        c.successors.map fun t => (f.bearer? t).map (p.base q.function + ·) := by
  have hbase : p.base q.function ≤ p.blockVertex q := Nat.le_add_right _ _
  have hfilter : ∀ c ∈ f.blocks, (blockSite marker (p.base q.function) f.labels c).vertex = p.blockVertex q ↔
      f.bearer? c.label = some q.block := by
    intro c hc
    obtain ⟨j, hj, hvertex⟩ := Program.vertex_blockSite marker (p.base q.function) hc
    rw [hvertex, hj, Program.blockVertex, Nat.add_left_cancel_iff, Option.some.injEq]
  have htargets : ∀ c ∈ f.blocks, ((blockSite marker (p.base q.function) f.labels c).edges.map fun e => some e.2) =
      c.successors.map fun t => (f.bearer? t).map (p.base q.function + ·) := by
    intro c hc
    rw [Site.map_edges (complete_blockSite marker _ (h f (List.mem_of_getElem? hq.1) c hc))]
    exact List.map_congr_left fun t _ => by rw [Function.lastIndex?_labels]
  have hsites : (f.sites marker (p.base q.function)).filter (·.vertex = p.blockVertex q) =
      (f.blocks.filter fun c => f.bearer? c.label = some q.block).map
        (blockSite marker (p.base q.function) f.labels) := by
    have hmap : f.sites marker (p.base q.function) = f.blocks.map (blockSite marker (p.base q.function) f.labels) := rfl
    rw [hmap, List.filter_map]
    exact congrArg _ (List.filter_congr fun c hc => decide_eq_decide.mpr (hfilter c hc))
  rw [hsucc, Program.filter_edges, Program.filter_sites hq.1 hbase hq.blockVertex_lt, hsites, List.flatMap_map,
    List.map_map, List.map_flatMap]
  exact List.flatMap_congr fun c hc => htargets c (List.mem_of_mem_filter hc)

/-- Where all targets are found, the graph is that of the program. -/
theorem depicts_of_targetsFound (h : ∀ f ∈ p.functions, f.TargetsFound) (marker : String) :
    ∃ g, (build marker p).value = .ok g ∧ g.Depicts p := by
  obtain ⟨B, -, hB, hbuild⟩ := exists_building h marker
  refine ⟨⟨B.graph, B.labels, B.blocks⟩, by rw [hbuild], ?_⟩
  have hsize : B.graph.size = p.blockCount := by
    rw [hB.size, ← Program.length_sites marker, Program.length_sites_eq_blockCount]
  refine ⟨?_, fun v => ⟨fun hv => ?_, ?_⟩, fun hq hr => hq.blockVertex_lt_iff hr, fun hq => ?_, fun hq => ?_⟩
  · exact (congrArg List.length hB.blocks_eq).trans hB.size.symm
  · exact Program.exists_blockVertex_eq (hsize ▸ hv)
  · rintro ⟨q, f, b, hq, rfl⟩
    exact hsize ▸ hq.blockVertex_lt_blockCount
  · rw [hB.blocks_eq]
    exact hq.getElem?_blockNames
  · exact map_some_successors (g := ⟨B.graph, B.labels, B.blocks⟩) h hB.successors hq

namespace Depicts

/-- An edge stays in its function. -/
theorem function_eq_of_edge (h : g.Depicts p) (hq : p.At q f b) (hr : p.At r f' b')
    (hmem : p.blockVertex r ∈ g.graph.successors (p.blockVertex q)) : q.function = r.function := by
  have hsome : some (p.blockVertex r) ∈ (g.graph.successors (p.blockVertex q)).map some := List.mem_map_of_mem hmem
  rw [h.successors hq] at hsome
  obtain ⟨c, -, hc⟩ := List.mem_flatMap.mp hsome
  obtain ⟨t, -, ht⟩ := List.mem_map.mp hc
  obtain ⟨j, hj, hvertex⟩ := Option.map_eq_some_iff.mp ht
  refine (hr.function_eq ?_ ?_).symm
  · rw [← hvertex]
    exact Nat.le_add_right _ _
  · rw [← hvertex, Program.base_succ hq.1]
    exact Nat.add_lt_add_left (Function.bearer?_lt hj) _

/-- So does a path. -/
theorem function_eq_of_path (h : g.Depicts p) {path : List Vertex} (hq : p.At q f b) (hr : p.At r f' b')
    (hpath : g.graph.IsPath (p.blockVertex q) (p.blockVertex r) path) : q.function = r.function := by
  have hfrom : ∀ {v w path}, g.graph.IsPath v w path → w = p.blockVertex r →
      ∀ {q f b}, p.At q f b → v = p.blockVertex q → q.function = r.function := by
    intro v w path hpath hw
    induction hpath with
    | single v =>
      intro q f b hq hv
      have hsame : p.blockVertex q = p.blockVertex r := hv.symm.trans hw
      refine hq.function_eq ?_ ?_
      · rw [hsame]
        exact Nat.le_add_right _ _
      · rw [hsame]
        exact hr.blockVertex_lt
    | @cons u v w path hmem _ ih =>
      intro q f b hq hu
      obtain ⟨s, f₁, b₁, hs, hv⟩ := (h.vertices v).mp (g.graph.lt_size_of_mem_successors hmem)
      rw [hu, ← hv] at hmem
      exact (h.function_eq_of_edge hq hs hmem).trans (ih hw hs hv.symm)
  exact hfrom hpath rfl hq rfl

/-- In a well-formed program the edges of a block are the targets of its terminator. -/
theorem successors_of_wellFormed (h : g.Depicts p) (hp : p.WellFormed) (hq : p.At q f b) :
    g.graph.successors (p.blockVertex q) = b.successors.map fun t => p.base q.function + f.labels.idxOf t := by
  have hf := hp.function hq
  have hsucc := h.successors hq
  rw [hf.filter_bearer? hq.2, List.flatMap_singleton] at hsucc
  have htargets : (b.successors.map fun t => (f.bearer? t).map (p.base q.function + ·)) =
      (b.successors.map fun t => p.base q.function + f.labels.idxOf t).map some := by
    rw [List.map_map]
    refine List.map_congr_left fun t ht => ?_
    rw [hf.bearer?_of_mem ((hp.block hq).targets t ht)]
    rfl
  exact List.map_injective_iff.mpr (Option.some_injective _) (hsucc.trans htargets)

end Depicts

end FlowGraph

/-! ## Missing targets -/

theorem Block.mem_successors_iff {b : Block} {t : String} :
    t ∈ b.successors ↔ ∃ i, b.body.getLast? = some i ∧ i.isTerminator = true ∧ t ∈ i.targets := by
  have hterm : ∀ i, b.terminator? = some i ↔ b.body.getLast? = some i ∧ i.isTerminator = true :=
    fun i => terminator?_eq_some_iff
  rw [successors]
  cases ht : b.terminator? with
  | none =>
    simp only [List.not_mem_nil, false_iff]
    rintro ⟨i, hlast, hi, -⟩
    rw [(hterm i).mpr ⟨hlast, hi⟩] at ht
    cases ht
  | some i =>
    obtain ⟨hlast, hi⟩ := (hterm i).mp ht
    constructor
    · exact fun hmem => ⟨i, hlast, hi, hmem⟩
    · rintro ⟨k, hk, -, hmem⟩
      cases hlast.symm.trans hk
      exact hmem

theorem Function.not_targetsFound_iff {f : Function} :
    ¬f.TargetsFound ↔ ∃ b ∈ f.blocks, ∃ i, b.body.getLast? = some i ∧ i.isTerminator = true ∧
      ∃ t ∈ i.targets, ∀ c ∈ f.blocks, c.label ≠ t := by
  have hlabel : ∀ t, t ∉ f.labels ↔ ∀ c ∈ f.blocks, c.label ≠ t := by simp [labels]
  have hnot : ¬f.TargetsFound ↔ ∃ b ∈ f.blocks, ∃ t ∈ b.successors, t ∉ f.labels := by simp [TargetsFound]
  rw [hnot]
  constructor
  · rintro ⟨b, hb, t, ht, hmiss⟩
    obtain ⟨i, hlast, hi, hmem⟩ := Block.mem_successors_iff.mp ht
    exact ⟨b, hb, i, hlast, hi, t, hmem, (hlabel t).mp hmiss⟩
  · rintro ⟨b, hb, i, hlast, hi, t, hmem, hmiss⟩
    exact ⟨b, hb, t, Block.mem_successors_iff.mpr ⟨i, hlast, hi, hmem⟩, (hlabel t).mpr hmiss⟩

namespace FlowGraph

/-- **The control-flow graph of a program**, well formed or not. There is none if and only if the terminator of some
block names a label that its function does not have. Otherwise the blocks are its vertices, and its edges lead from the
last bearers of labels to the last bearers of those that are named. Adding vertices, edges and names function by
function comes to the same. No path leads from one function to another, and in a verified program the successors of a
block are the targets of its terminator, in their order. -/
theorem build_depicts (marker : String) (p : Program) :
    (∀ e, (build marker p).value = .error e ↔ e = .unknownLabel ∧
      ∃ f ∈ p.functions, ∃ b ∈ f.blocks, ∃ i, b.body.getLast? = some i ∧ i.isTerminator = true ∧
        ∃ t ∈ i.targets, ∀ c ∈ f.blocks, c.label ≠ t) ∧
      Misuse.unknownLabel.message = "no entry found for key" ∧
      guardedBuild marker p = (build marker p).value.map (fun g => ⟨g, (build marker p).events⟩) ∧
      ∀ g, (build marker p).value = .ok g →
        g.Depicts p ∧
        (∀ q r f f' b b' path, p.At q f b → p.At r f' b' →
          g.graph.IsPath (p.blockVertex q) (p.blockVertex r) path → q.function = r.function) ∧
        (p.verify = .ok () → ∀ q f b, p.At q f b →
          g.graph.successors (p.blockVertex q) = b.successors.map fun t => p.base q.function + f.labels.idxOf t) := by
  refine ⟨fun e => ?_, rfl, guardedBuild_eq marker p, fun g hg => ?_⟩
  · simp only [← Function.not_targetsFound_iff]
    by_cases h : ∀ f ∈ p.functions, f.TargetsFound
    · obtain ⟨g, hg, -⟩ := depicts_of_targetsFound h marker
      rw [hg]
      simp only [reduceCtorEq, false_iff]
      rintro ⟨-, f, hf, hmiss⟩
      exact hmiss (h f hf)
    · have hmiss : ∃ f ∈ p.functions, ¬f.TargetsFound := by simpa using h
      rw [build_of_not_targetsFound marker hmiss, Except.error.injEq]
      exact ⟨fun he => ⟨he.symm, hmiss⟩, fun he => he.1.symm⟩
  · have hfound : ∀ f ∈ p.functions, f.TargetsFound := by
      by_contra h
      rw [build_of_not_targetsFound marker (by simpa using h)] at hg
      cases hg
    obtain ⟨g', hg', hdepicts⟩ := depicts_of_targetsFound hfound marker
    cases hg.symm.trans hg'
    refine ⟨hdepicts, fun q r f f' b b' path hq hr hpath => hdepicts.function_eq_of_path hq hr hpath,
      fun hverify q f b hq => hdepicts.successors_of_wellFormed (Program.verify_eq_ok_iff.mp hverify) hq⟩

/-- The second function bears the label `a` twice: its first block has no edges, and its last one has those of both. In
the verified program the self-loop of the second function stays with it. -/
theorem build_depicts_repeated :
    let p : Program := ⟨[⟨"f", [⟨"a", [.ret]⟩]⟩,
      ⟨"g", [⟨"a", [.br "b"]⟩, ⟨"b", [.cbr "a" "a"]⟩, ⟨"a", [.switch ["b", "a"]]⟩]⟩]⟩
    let r : Program := ⟨[⟨"f", [⟨"a", [.ret]⟩]⟩, ⟨"g", [⟨"a", [.cbr "b" "a"]⟩, ⟨"b", [.ret]⟩]⟩]⟩
    (∃ g, (build "" p).value = .ok g ∧ g.Depicts p ∧
      (List.range 4).map g.graph.successors = [[], [], [3, 3], [2, 2, 3]]) ∧
    r.verify = .ok () ∧ ∃ g, (build "" r).value = .ok g ∧ g.graph.successors 1 = [2, 1] ∧
      ∀ path, ¬g.graph.IsPath 1 0 path := by
  intro p r
  have hp : ((build "" p).value.map fun g => (List.range 4).map g.graph.successors) =
      .ok [[], [], [3, 3], [2, 2, 3]] := by decide +kernel
  have hr : ((build "" r).value.map fun _ => ()) = .ok () := by decide +kernel
  have hverify : r.verify = .ok () := by decide +kernel
  refine ⟨?_, hverify, ?_⟩
  · cases hg : (build "" p).value with
    | error e => simp [hg, Except.map] at hp
    | ok g =>
      rw [hg] at hp
      exact ⟨g, rfl, ((build_depicts "" p).2.2.2 g hg).1, Except.ok.inj hp⟩
  · cases hg : (build "" r).value with
    | error e => simp [hg, Except.map] at hr
    | ok g =>
      obtain ⟨-, hpath, hsucc⟩ := (build_depicts "" r).2.2.2 g hg
      refine ⟨g, rfl, hsucc hverify ⟨1, 0, 0⟩ _ _ ⟨rfl, rfl⟩, fun path h => ?_⟩
      have := hpath ⟨1, 0, 0⟩ ⟨0, 0, 0⟩ _ _ _ _ path ⟨rfl, rfl⟩ ⟨rfl, rfl⟩ h
      cases this

end FlowGraph

end Waymark
