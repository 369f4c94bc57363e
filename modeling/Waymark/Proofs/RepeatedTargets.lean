import Waymark.Check
import Waymark.Proofs.BlockGraph
import Waymark.Proofs.Query
import Waymark.Proofs.Repetitions
import Waymark.Proofs.Search.ParallelEdges

/-!
# Targets that are named more than once

A branch may name a label more than once. With all but the first of these left out (`Program.mergeTargets`) a program is
split at the same places and has the same blocks and tracepoints, and its graph differs in parallel edges alone
(`FlowGraph.Depicts.withoutParallel_eq`). Parallel edges make no difference to a search, so both programs are analysed
alike.
-/

namespace Waymark

/-! ## Programs that name each target once -/

/-- An instruction that names each of its targets once, in the order of their first places. -/
def Instruction.mergeTargets : Instruction → Instruction
  | .cbr t e => if t = e then .br t else .cbr t e
  | .switch ts => .switch ts.eraseDups
  | i => i

/-- A block whose branches name each target once. -/
def Block.mergeTargets (b : Block) : Block := ⟨b.label, b.body.map (·.mergeTargets)⟩

/-- A function whose branches name each target once. -/
def Function.mergeTargets (f : Function) : Function := ⟨f.name, f.blocks.map (·.mergeTargets)⟩

/-- A program whose branches name each target once. -/
def Program.mergeTargets (p : Program) : Program := ⟨p.functions.map (·.mergeTargets)⟩

namespace Instruction

theorem targets_mergeTargets (i : Instruction) : i.mergeTargets.targets = i.targets.eraseDups := by
  cases i with
  | cbr t e =>
    by_cases h : t = e
    · simp [mergeTargets, targets, h, List.eraseDups_cons]
    · simp [mergeTargets, targets, h, List.eraseDups_cons, Ne.symm h]
  | br t => simp [mergeTargets, targets, List.eraseDups_cons]
  | _ => rfl

@[simp] theorem isTerminator_mergeTargets (i : Instruction) : i.mergeTargets.isTerminator = i.isTerminator := by
  cases i with
  | cbr t e => by_cases h : t = e <;> simp [mergeTargets, isTerminator, h]
  | _ => rfl

@[simp] theorem tracepoint?_mergeTargets (marker : String) (i : Instruction) :
    i.mergeTargets.tracepoint? marker = i.tracepoint? marker := by
  cases i with
  | cbr t e => by_cases h : t = e <;> simp [mergeTargets, tracepoint?, h]
  | _ => rfl

@[simp] theorem isTracepoint_mergeTargets (marker : String) (i : Instruction) :
    i.mergeTargets.isTracepoint marker = i.isTracepoint marker := by
  simp [isTracepoint]

end Instruction

namespace Block

theorem successors_mergeTargets (b : Block) : b.mergeTargets.successors = b.successors.eraseDups := by
  have hterm : b.mergeTargets.terminator? = b.terminator?.map (·.mergeTargets) := by
    simp only [terminator?, mergeTargets, List.getLast?_map]
    cases b.body.getLast? with
    | none => rfl
    | some i => cases hi : i.isTerminator <;> simp [Option.filter, hi]
  rw [successors, successors, hterm]
  cases b.terminator? with
  | none => rfl
  | some i => exact i.targets_mergeTargets

theorem tracepoints_mergeTargets (marker : String) (b : Block) :
    b.mergeTargets.tracepoints marker = b.tracepoints marker := by
  rw [tracepoints, tracepoints, mergeTargets, List.filterMap_map]
  exact List.filterMap_congr fun i _ => i.tracepoint?_mergeTargets marker

end Block

theorem Function.labels_mergeTargets (f : Function) : f.mergeTargets.labels = f.labels := by
  simp [labels, mergeTargets, Block.mergeTargets]

/-! ## Splitting -/

/-- A piece whose branches name each target once. -/
def Piece.mergeTargets (c : Piece) : Piece := ⟨c.head.mergeTargets, c.rest.map (·.mergeTargets)⟩

theorem cutAtTracepoints_mergeTargets (marker : String) (is : List Instruction) :
    cutAtTracepoints marker (is.map (·.mergeTargets)) =
      ((cutAtTracepoints marker is).1.map (·.mergeTargets), (cutAtTracepoints marker is).2.map (·.mergeTargets)) := by
  induction is with
  | nil => rfl
  | cons i is ih =>
    simp only [List.map_cons, cutAtTracepoints, ih, Instruction.isTracepoint_mergeTargets]
    split <;> rfl

theorem Block.pieces_mergeTargets (marker : String) (b : Block) :
    b.mergeTargets.pieces marker =
      ((b.pieces marker).1.map (·.mergeTargets), (b.pieces marker).2.map (·.mergeTargets)) := by
  obtain ⟨label, body⟩ := b
  cases body with
  | nil => rfl
  | cons i is => simp only [Block.pieces, Block.mergeTargets, List.map_cons, cutAtTracepoints_mergeTargets]

theorem chain_mergeTargets (label : String) (body : List Instruction) (links : List (String × Piece)) :
    chain label (body.map (·.mergeTargets)) (links.map (Prod.map id (·.mergeTargets))) =
      (chain label body links).map (·.mergeTargets) := by
  induction links generalizing label body with
  | nil => rfl
  | cons link links ih =>
    obtain ⟨next, piece⟩ := link
    have hbr : (Instruction.br next).mergeTargets = .br next := rfl
    have hbody : (Piece.mergeTargets piece).body = piece.body.map (·.mergeTargets) := rfl
    simp only [List.map_cons, Prod.map, id, chain, hbody, ih, Block.mergeTargets, List.map_append, List.map_nil, hbr]

theorem splitBlocks_mergeTargets (marker function : String) (taken : List String) (bs : List Block) :
    (splitBlocks marker function taken (bs.map (·.mergeTargets))).1 =
      (splitBlocks marker function taken bs).1.map (·.mergeTargets) := by
  induction bs generalizing taken with
  | nil => rfl
  | cons b bs ih =>
    have hlabel : b.mergeTargets.label = b.label := rfl
    simp only [List.map_cons, splitBlocks, Block.pieces_mergeTargets, hlabel, List.length_map, ih, List.map_append,
      List.zip_map_right, chain_mergeTargets]

/-- **Splitting** goes the same way. -/
theorem Program.split_mergeTargets (marker : String) (p : Program) :
    (p.mergeTargets.split marker).program = (p.split marker).program.mergeTargets := by
  have hfunction : ∀ f : Function, (f.mergeTargets.split marker).1 = (f.split marker).1.mergeTargets := fun f => by
    have hblocks := splitBlocks_mergeTargets marker f.name f.labels f.blocks
    simp only [Function.split, Function.labels_mergeTargets]
    exact congrArg (Function.mk f.name) hblocks
  simp [split, mergeTargets, hfunction]

/-! ## Graphs -/

namespace Function

variable {f : Function}

theorem targetsFound_mergeTargets : f.mergeTargets.TargetsFound ↔ f.TargetsFound := by
  simp only [TargetsFound, labels_mergeTargets]
  simp [mergeTargets, Block.successors_mergeTargets]

theorem bearer?_mergeTargets (f : Function) (label : String) : f.mergeTargets.bearer? label = f.bearer? label := by
  rw [← lastIndex?_labels, ← lastIndex?_labels, labels_mergeTargets]

end Function

namespace Program

variable {p : Program} {q : Position} {f : Function} {b : Block} {marker : String}

theorem At.mergeTargets (h : p.At q f b) : p.mergeTargets.At q f.mergeTargets b.mergeTargets := by
  constructor
  · simp [Program.mergeTargets, h.1]
  · simp [Function.mergeTargets, h.2]

theorem at_mergeTargets_iff {f' : Function} {b' : Block} :
    p.mergeTargets.At q f' b' ↔ ∃ f b, p.At q f b ∧ f.mergeTargets = f' ∧ b.mergeTargets = b' := by
  constructor
  · rintro ⟨hf, hb⟩
    rw [Program.mergeTargets, List.getElem?_map, Option.map_eq_some_iff] at hf
    obtain ⟨f, hf, rfl⟩ := hf
    rw [Function.mergeTargets, List.getElem?_map, Option.map_eq_some_iff] at hb
    obtain ⟨b, hb, rfl⟩ := hb
    exact ⟨f, b, ⟨hf, hb⟩, rfl, rfl⟩
  · rintro ⟨f, b, hat, rfl, rfl⟩
    exact hat.mergeTargets

theorem base_mergeTargets (p : Program) (i : Nat) : p.mergeTargets.base i = p.base i := by
  have hblocks : (p.mergeTargets.functions.take i).flatMap (·.blocks) =
      ((p.functions.take i).flatMap (·.blocks)).map (·.mergeTargets) := by
    rw [mergeTargets, ← List.map_take, List.flatMap_map, List.map_flatMap]
    rfl
  rw [base, base, hblocks, List.length_map]

theorem blockVertex_mergeTargets (p : Program) (q : Position) : p.mergeTargets.blockVertex q = p.blockVertex q := by
  rw [blockVertex, blockVertex, base_mergeTargets]

theorem blockNames_mergeTargets (p : Program) : p.mergeTargets.blockNames = p.blockNames := by
  rw [blockNames, blockNames, mergeTargets, List.flatMap_map]
  refine List.flatMap_congr fun f _ => ?_
  rw [Function.mergeTargets, List.map_map]
  rfl

/-- The calls of tracepoints stand at the same vertices. -/
theorem calls_mergeTargets (marker : String) (p : Program) :
    (p.mergeTargets.sites marker).flatMap Site.calls = (p.sites marker).flatMap Site.calls := by
  have hblock : ∀ (base : Nat) (labels : List String) (b : Block),
      (blockSite marker base labels b.mergeTargets).calls = (blockSite marker base labels b).calls := fun _ _ b => by
    simp only [blockSite, Site.calls, b.tracepoints_mergeTargets marker]
    rfl
  have hfunction : ∀ (f : Function) (base : Nat),
      (f.mergeTargets.sites marker base).flatMap Site.calls = (f.sites marker base).flatMap Site.calls := by
    intro f base
    have hsites : ∀ f : Function, f.sites marker base = f.blocks.map (blockSite marker base f.labels) := fun _ => rfl
    rw [hsites, hsites, f.labels_mergeTargets, Function.mergeTargets, List.map_map, List.flatMap_map, List.flatMap_map]
    exact List.flatMap_congr fun b _ => hblock base f.labels b
  have hfrom : ∀ (fs : List Function) (base : Nat),
      (sitesFrom marker base (fs.map (·.mergeTargets))).flatMap Site.calls =
        (sitesFrom marker base fs).flatMap Site.calls := by
    intro fs
    induction fs with
    | nil => exact fun _ => rfl
    | cons f fs ih =>
      intro base
      have hlength : f.mergeTargets.blocks.length = f.blocks.length := List.length_map _
      rw [List.map_cons, sitesFrom, sitesFrom, List.flatMap_append, List.flatMap_append, hfunction, hlength, ih]
  exact hfrom p.functions 0

end Program

namespace FlowGraph

variable {p : Program} {g g' : FlowGraph} {marker : String}

/-- **Graphs** of the two programs differ in parallel edges alone. -/
theorem Depicts.withoutParallel_eq (h : g.Depicts p) (h' : g'.Depicts p.mergeTargets) :
    g'.graph.withoutParallel = g.graph.withoutParallel := by
  have hlt : ∀ v, v < g'.graph.size ↔ v < g.graph.size := by
    intro v
    rw [h.vertices, h'.vertices]
    constructor
    · rintro ⟨q, f', b', hq, rfl⟩
      obtain ⟨f, b, hq, -⟩ := Program.at_mergeTargets_iff.mp hq
      exact ⟨q, f, b, hq, (p.blockVertex_mergeTargets q).symm⟩
    · rintro ⟨q, f, b, hq, rfl⟩
      exact ⟨q, _, _, hq.mergeTargets, p.blockVertex_mergeTargets q⟩
  have hsize : g'.graph.size = g.graph.size := by
    have := hlt g.graph.size
    have := hlt g'.graph.size
    omega
  -- every vertex is a block of both programs, and a number that is none has no edges
  refine Graph.ext_successors (by simpa using hsize) fun v => ?_
  rw [Graph.successors_withoutParallel, Graph.successors_withoutParallel]
  by_cases hv : v < g.graph.size
  · obtain ⟨q, f, b, hq, rfl⟩ := (h.vertices v).mp hv
    have hsome : ((g'.graph.successors (p.blockVertex q)).map some).eraseDups =
        ((g.graph.successors (p.blockVertex q)).map some).eraseDups := by
      have hsuccessors := h'.successors hq.mergeTargets
      rw [p.blockVertex_mergeTargets] at hsuccessors
      have hblocks : f.mergeTargets.blocks = f.blocks.map (·.mergeTargets) := rfl
      simp only [hblocks, f.bearer?_mergeTargets, p.base_mergeTargets, List.filter_map, List.flatMap_map] at hsuccessors
      rw [hsuccessors, h.successors hq]
      refine eraseDups_flatMap_congr fun c _ => ?_
      rw [c.successors_mergeTargets]
      exact eraseDups_map_eraseDups (fun t => (f.bearer? t).map (p.base q.function + ·)) c.successors
    simpa [List.map_map] using eraseDups_map_congr (fun o : Option Vertex => o.getD 0) hsome
  · rw [Graph.successors_of_size_le (Nat.not_lt.mp hv), Graph.successors_of_size_le (hsize ▸ Nat.not_lt.mp hv)]

/-- The two programs have the same blocks and names, and graphs that differ in parallel edges alone, or both have no
graph. -/
theorem build_mergeTargets (marker : String) (p : Program) :
    ((build marker p.mergeTargets).value.map fun g => (g.graph.withoutParallel, g.labels, g.blocks)) =
      (build marker p).value.map fun g => (g.graph.withoutParallel, g.labels, g.blocks) := by
  by_cases h : ∀ f ∈ p.functions, f.TargetsFound
  · have h' : ∀ f ∈ p.mergeTargets.functions, f.TargetsFound := by
      simpa [Program.mergeTargets, Function.targetsFound_mergeTargets] using h
    obtain ⟨B, -, hB, hbuild⟩ := exists_building h marker
    obtain ⟨B', -, hB', hbuild'⟩ := exists_building h' marker
    obtain ⟨g, hg, hdepicts⟩ := depicts_of_targetsFound h marker
    obtain ⟨g', hg', hdepicts'⟩ := depicts_of_targetsFound h' marker
    rw [hbuild] at hg
    rw [hbuild'] at hg'
    cases hg
    cases hg'
    have hlabels : B'.labels = B.labels := by rw [hB'.labels, hB.labels, p.calls_mergeTargets]
    have hblocks : B'.blocks = B.blocks := by rw [hB'.blocks_eq, hB.blocks_eq, p.blockNames_mergeTargets]
    have hgraph : B'.graph.withoutParallel = B.graph.withoutParallel := hdepicts.withoutParallel_eq hdepicts'
    rw [hbuild, hbuild']
    simp only [Except.map, hlabels, hblocks, hgraph]
  · have hmiss : ∃ f ∈ p.functions, ¬f.TargetsFound := by simpa using h
    have hmiss' : ∃ f ∈ p.mergeTargets.functions, ¬f.TargetsFound := by
      simpa [Program.mergeTargets, Function.targetsFound_mergeTargets] using h
    rw [build_of_not_targetsFound marker hmiss, build_of_not_targetsFound marker hmiss']

end FlowGraph

/-! ## Searches and checks -/

namespace Graph

/-- Whether there is a search or not, and its records, do not depend on parallel edges. -/
theorem analyze_withoutParallel (g : Graph) (start final : Vertex) :
    (g.withoutParallel.analyze start final).map (·.records) = (g.analyze start final).map (·.records) := by
  have hcontains : ∀ v, g.withoutParallel.contains v = g.contains v := fun v => by simp [contains]
  rw [analyze, analyze, hcontains, hcontains]
  by_cases hs : start < g.size
  · by_cases hf : final < g.size
    · simp [contains, hs, hf, Except.map, g.records_search_withoutParallel hs hf]
    · simp [contains, hs, hf, Except.map]
  · simp [contains, hs, Except.map]

/-- The outcome is read off the record of the start. -/
theorem outcome_withoutParallel {g : Graph} {s f : Vertex} (hs : s < g.size) (hf : f < g.size) :
    g.withoutParallel.outcome s f = g.outcome s f := by
  have hrecord : (g.withoutParallel.search s f).startRecord = (g.search s f).startRecord := by
    rw [Analysis.startRecord, g.records_search_withoutParallel hs hf]
    rfl
  rw [outcome, outcome, hrecord]

/-- Neither does what a query answers. -/
theorem query_withoutParallel (g : Graph) (labels : Labels) (start final : String) :
    (g.withoutParallel.query labels start final).map (·.value) = (g.query labels start final).map (·.value) := by
  cases hs : labels.get? start with
  | none => simp [query, hs]
  | some s =>
    cases hf : labels.get? final with
    | none => simp [query, hs, hf]
    | some f =>
      by_cases hsg : s < g.size
      · by_cases hfg : f < g.size
        · obtain ⟨events, hquery⟩ := query_of_found hs hf hsg hfg
          obtain ⟨events', hquery'⟩ :=
            query_of_found (g := g.withoutParallel) hs hf (by simpa using hsg) (by simpa using hfg)
          rw [hquery, hquery', outcome_withoutParallel hsg hfg]
          rfl
        · simp [query, hs, hf, analyze, contains, hsg, hfg, Except.map, bind, Except.bind]
      · simp [query, hs, hf, analyze, contains, hsg, Except.map, bind, Except.bind]

end Graph

/-- **What does not see parallel edges does not see repeated targets.** -/
theorem FlowGraph.bind_build_mergeTargets {α : Type} (answer : Graph → Labels → Except Misuse α)
    (h : ∀ g labels, answer g.withoutParallel labels = answer g labels) (marker : String) (p : Program) :
    ((build marker p.mergeTargets).value.bind fun g => answer g.graph g.labels) =
      (build marker p).value.bind fun g => answer g.graph g.labels := by
  have hview : ∀ built : Except Misuse FlowGraph, (built.bind fun g => answer g.graph g.labels) =
      (built.map fun g => (g.graph.withoutParallel, g.labels, g.blocks)).bind fun view => answer view.1 view.2.1 := by
    intro built
    cases built with
    | error e => rfl
    | ok g => exact (h g.graph g.labels).symm
  rw [hview, hview, build_mergeTargets]

namespace Program

/-- The outcome of a check is what the query in the graph of the split program says. -/
theorem map_outcome_check (p : Program) (marker start final : String) :
    (p.check marker start final).map (·.value.outcome) =
      ((FlowGraph.build marker (p.split marker).program).value.bind fun g =>
        (g.graph.query g.labels start final).map (·.value)).mapError .misuse := by
  rw [check]
  cases (FlowGraph.build marker (p.split marker).program).value with
  | error e => rfl
  | ok g =>
    simp only [Except.mapError, Except.bind, bind]
    cases g.graph.query g.labels start final <;> rfl

/-- **Repeated edges and repeated targets make no difference.** A search in a graph without parallel edges leaves every
record as it is; so the graphs of a program and of the one that names each target once are analysed alike, whatever the
vertices, and a check has the same outcome. -/
theorem analysis_mergeTargets :
    (∀ (g : Graph) (start final : Vertex), start < g.size → final < g.size →
      ∃ a a', g.analyze start final = .ok a ∧ g.withoutParallel.analyze start final = .ok a' ∧
        a'.records = a.records ∧ ∀ v, a'.record? v = a.record? v) ∧
      ∀ (p : Program) (marker : String),
        (∀ start final : Vertex,
          ((FlowGraph.build marker p.mergeTargets).value.bind fun g => (g.graph.analyze start final).map (·.records)) =
            (FlowGraph.build marker p).value.bind fun g => (g.graph.analyze start final).map (·.records)) ∧
        ∀ start final : String, (p.mergeTargets.check marker start final).map (·.value.outcome) =
          (p.check marker start final).map (·.value.outcome) := by
  refine ⟨fun g start final hs hf => ?_, fun p marker => ⟨fun start final => ?_, fun start final => ?_⟩⟩
  · have hrecords := g.records_search_withoutParallel hs hf
    refine ⟨g.search start final, g.withoutParallel.search start final, Graph.analyze_eq_ok_iff.mpr ⟨hs, hf, rfl⟩,
      Graph.analyze_eq_ok_iff.mpr ⟨by simpa using hs, by simpa using hf, rfl⟩, hrecords, fun v => ?_⟩
    rw [Analysis.record?, Analysis.record?, hrecords]
  · exact FlowGraph.bind_build_mergeTargets (fun g _ => (g.analyze start final).map (·.records))
      (fun g _ => g.analyze_withoutParallel start final) marker p
  · rw [map_outcome_check, map_outcome_check, p.split_mergeTargets]
    exact congrArg _ (FlowGraph.bind_build_mergeTargets (fun g labels => (g.query labels start final).map (·.value))
      (fun g labels => g.query_withoutParallel labels start final) marker (p.split marker).program)

/-- A graph whose parallel edges lead to a vertex that is new at first and finished at the second look, and back to one
that is in progress at both; and a program with such branches. -/
theorem analysis_mergeTargets_loop :
    let g : Graph := ⟨#[[1, 2, 1], [0, 2, 0, 3], [], [3, 3]], by decide⟩
    let p : Program := ⟨[⟨"f", [⟨"a", [.call "t_x", .cbr "b" "b"]⟩, ⟨"b", [.switch ["a", "c", "a", "c"]]⟩,
      ⟨"c", [.call "t_y", .ret]⟩]⟩]⟩
    0 < g.size ∧ 2 < g.size ∧ g.withoutParallel.adjacency = #[[1, 2], [0, 2, 3], [], [3]] ∧
      (∃ a a', g.analyze 0 2 = .ok a ∧ g.withoutParallel.analyze 0 2 = .ok a' ∧ a'.records = a.records) ∧
      p.mergeTargets = ⟨[⟨"f", [⟨"a", [.call "t_x", .br "b"]⟩, ⟨"b", [.switch ["a", "c"]]⟩,
        ⟨"c", [.call "t_y", .ret]⟩]⟩]⟩ ∧
      (p.mergeTargets.check "t_" "x" "y").map (·.value.outcome) = .ok ⟨false, false, false, true, false⟩ := by
  intro g p
  have hs : 0 < g.size := by decide
  have hf : 2 < g.size := by decide
  obtain ⟨a, a', ha, ha', hrecords, -⟩ := analysis_mergeTargets.1 g 0 2 hs hf
  have hcheck := (analysis_mergeTargets.2 p "t_").2 "x" "y"
  refine ⟨hs, hf, by decide +kernel, ⟨a, a', ha, ha', hrecords⟩, by decide +kernel, hcheck.trans ?_⟩
  decide +kernel

end Program

end Waymark
