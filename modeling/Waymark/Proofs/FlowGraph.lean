import Mathlib.Data.List.TakeWhile
import Waymark.FlowGraph
import Waymark.Proofs.Program.Split

/-!
# The control-flow graph of a split program

The vertices of the graph are the heads of the program, in the order of the text, and its edges lead from head to head
(`Program.WellFormed.build_split`). The work is in the sites: those of the split program are, one by one, what the heads
of the program itself say (`Program.WellFormed.sites_split`).
-/

namespace Waymark

/-! ## The sites of parts -/

theorem lastIndex?_eq_none {words : List String} {w : String} (h : w ∉ words) : lastIndex? w words = none := by
  induction words with
  | nil => rfl
  | cons v words ih =>
    rw [List.mem_cons, not_or] at h
    simp [lastIndex?, ih h.2, Ne.symm h.1]

/-- Where no word stands twice, the last place of a word is its only one. -/
theorem lastIndex?_of_nodup {words : List String} (h : words.Nodup) {w : String} {c : Nat} (hc : words[c]? = some w) :
    lastIndex? w words = some c := by
  induction words generalizing c with
  | nil => cases hc
  | cons v words ih =>
    rw [List.nodup_cons] at h
    rw [lastIndex?]
    cases c with
    | zero =>
      cases hc
      simp [lastIndex?_eq_none h.1]
    | succ c => rw [ih h.2 hc]

namespace Part.Fits

variable {marker : String} {b : Block} {q : Part} {all : List Part} {labels : List String}

theorem getElem?_start (h : q.Fits marker b all) : b.body[q.start]? = q.body.head? := by
  obtain ⟨i, is, rest, hbody, hdrop, -⟩ := h
  rw [← Nat.add_zero q.start, ← List.getElem?_drop, hdrop, hbody]
  rfl

/-- A part marks the tracepoint that it starts with. -/
theorem tracepoints (h : q.Fits marker b all) :
    q.toBlock.tracepoints marker = (b.body[q.start]?.bind (·.tracepoint? marker)).toList := by
  have hstart := h.getElem?_start
  obtain ⟨i, is, rest, hbody, -, his, -⟩ := h
  have hnone : ∀ j ∈ is, j.tracepoint? marker = none := fun j hj => by
    simpa [Instruction.isTracepoint] using his j hj
  have hbr : ((q.next?.map Instruction.br).toList).filterMap (·.tracepoint? marker) = [] := by
    cases q.next? <;> rfl
  rw [hstart, Block.tracepoints, toBlock, List.filterMap_append, hbr, List.append_nil, hbody, List.filterMap_cons,
    List.filterMap_eq_nil_iff.mpr hnone, List.head?_cons, Option.bind_some]
  cases i.tracepoint? marker <;> rfl

/-- The marks of a block from the start of a part on. -/
theorem marked_add {n : Nat} {l : List Instruction} (hdrop : b.body.drop n = l) (k : Nat) :
    b.marked marker (n + k) = l[k]?.any (·.isTracepoint marker) := by
  rw [Block.marked, ← List.getElem?_drop, hdrop]

/-- A part that runs into another one ends at the next cut. -/
theorem nextCut?_of_some (h : q.Fits marker b all) {l : String} (hl : q.next? = some l) :
    b.nextCut? marker q.start = some (q.start + q.body.length) := by
  obtain ⟨i, is, rest, hbody, hdrop, his, hnext⟩ := h
  rw [hl] at hnext
  obtain ⟨⟨t, ts, rfl, ht⟩, -⟩ := hnext
  rw [Block.nextCut?_eq_some_iff]
  refine ⟨by simp [hbody], ?_, fun m hm hm' => ?_⟩
  · rw [marked_add hdrop, List.getElem?_append_right (Nat.le_refl _), Nat.sub_self]
    exact ht
  · obtain ⟨k, rfl⟩ : ∃ k, m = q.start + (k + 1) := ⟨m - q.start - 1, by omega⟩
    have hk : k < is.length := by
      rw [hbody, List.length_cons] at hm'
      omega
    rw [marked_add hdrop, hbody, List.getElem?_append_left (by simpa using hk), List.getElem?_cons_succ,
      List.getElem?_eq_getElem hk]
    exact his _ (List.getElem_mem hk)

/-- A part that runs into no other one ends with its block. -/
theorem nextCut?_of_none (h : q.Fits marker b all) (hl : q.next? = none) :
    b.nextCut? marker q.start = none ∧ b.body.drop q.start = q.body := by
  obtain ⟨i, is, rest, hbody, hdrop, his, hnext⟩ := h
  rw [hl] at hnext
  cases hnext
  rw [List.append_nil] at hdrop
  refine ⟨Block.nextCut?_eq_none_iff.mpr fun m hm => ?_, hdrop⟩
  obtain ⟨k, rfl⟩ : ∃ k, m = q.start + (k + 1) := ⟨m - q.start - 1, by omega⟩
  rw [marked_add hdrop, hbody, List.getElem?_cons_succ, Option.any_eq_false]
  exact fun j hj => by simpa using his j (List.mem_of_getElem? hj)

/-- The targets of a part are those of its block, or the next part. -/
theorem successors (h : q.Fits marker b all) :
    q.toBlock.successors = match q.next? with
      | some l => [l]
      | none => b.successors := by
  cases hl : q.next? with
  | some l =>
    have hterm : q.toBlock.terminator? = some (.br l) := by
      simp [Block.terminator?, toBlock, hl, Instruction.isTerminator]
    simp [Block.successors, hterm, Instruction.targets]
  | none =>
    have hdrop := (h.nextCut?_of_none hl).2
    obtain ⟨i, is, -, hbody, -⟩ := h
    have hlast : q.toBlock.body.getLast? = b.body.getLast? := by
      have hlt : q.start < b.body.length := by
        by_contra hlt
        rw [List.drop_eq_nil_of_le (Nat.not_lt.mp hlt), hbody] at hdrop
        cases hdrop
      simp [toBlock, hl, ← hdrop, List.getLast?_drop, Nat.not_le.mpr hlt]
    simp [Block.successors, Block.terminator?, hlast]

end Part.Fits

/-! ## The heads of functions -/

namespace Function

variable {marker : String} {f : Function} {i : Nat} {q : Part}

/-- The parts of a function. -/
def parts (marker : String) (f : Function) : List Part := Waymark.parts marker 0 f.labels f.blocks

/-- The heads of the function number `i`. -/
def heads (marker : String) (i : Nat) (f : Function) : List Position :=
  f.blocks.zipIdx.flatMap fun x => (x.1.cuts marker).map fun k => ⟨i, x.2, k⟩

/-- The heads of a function are listed in the order of the text. -/
theorem pairwise_heads (marker : String) (i : Nat) (f : Function) : (f.heads marker i).Pairwise Position.Before := by
  refine Program.pairwise_flatMap_zipIdx (fun ⟨b, j⟩ _ => ?_) fun x y hxy q hq r hr => ?_
  · exact List.pairwise_map.mpr ((List.pairwise_lt_range.filter _).imp fun hlt => .inr ⟨rfl, .inr ⟨rfl, hlt⟩⟩)
  · obtain ⟨k, _, rfl⟩ := List.mem_map.mp hq
    obtain ⟨m, _, rfl⟩ := List.mem_map.mp hr
    exact .inr ⟨rfl, .inl hxy⟩

theorem nodup_heads (marker : String) (i : Nat) (f : Function) : (f.heads marker i).Nodup :=
  (f.pairwise_heads marker i).imp Position.Before.ne

theorem blocks_split (marker : String) (f : Function) :
    (f.split marker).1.blocks = (f.parts marker).map Part.toBlock :=
  splitBlocks_eq_parts marker f.name 0 f.labels f.blocks

theorem labels_split (marker : String) (f : Function) :
    (f.split marker).1.labels = (f.parts marker).map (·.label) := by
  rw [labels, blocks_split, List.map_map]
  rfl

namespace WellFormed

theorem heads_eq_map_place (h : f.WellFormed) : f.heads marker i = (f.parts marker).map (Part.place i) :=
  (map_place_parts i 0 f.labels fun b hb => (h.blocks b hb).body_ne_nil).symm

/-- The label of a part leads to the number of its place. -/
theorem lastIndex?_label (h : f.WellFormed) (i : Nat) (hq : q ∈ f.parts marker) :
    lastIndex? q.label (f.split marker).1.labels = some ((f.heads marker i).idxOf (q.place i)) := by
  obtain ⟨c, hc, rfl⟩ := List.mem_iff_getElem.mp hq
  have hplace : (f.heads marker i)[c]? = some (Part.place i (f.parts marker)[c]) := by
    rw [h.heads_eq_map_place, List.getElem?_map, List.getElem?_eq_getElem hc]
    rfl
  obtain ⟨hc', hget⟩ := List.getElem?_eq_some_iff.mp hplace
  rw [← hget, (f.nodup_heads marker i).idxOf_getElem c hc', labels_split]
  have hnd : ((f.parts marker).map (·.label)).Nodup := nodup_label_parts h.labels (List.Subset.refl _)
  refine lastIndex?_of_nodup hnd ?_
  rw [List.getElem?_map, List.getElem?_eq_getElem hc]
  rfl

/-- The targets of a part lead to the numbers of the heads ahead. -/
theorem map_lastIndex?_successors (h : f.WellFormed) (i : Nat) {b : Block} (hb : f.blocks[q.block]? = some b)
    (hq : q.Fits marker b (f.parts marker)) :
    q.toBlock.successors.map (lastIndex? · (f.split marker).1.labels) =
      (b.onward marker f.labels (q.place i)).map fun r => some ((f.heads marker i).idxOf r) := by
  have hindex : (q.place i).index = q.start := rfl
  rw [hq.successors, Block.onward, hindex]
  cases hnext : q.next? with
  | some l =>
    rw [hq.nextCut?_of_some hnext]
    obtain ⟨_, _, _, -, -, -, hrun⟩ := hq
    rw [hnext] at hrun
    obtain ⟨-, r, hr, rfl, hblock, hstart⟩ := hrun
    have hplace : r.place i = ⟨i, q.block, q.start + q.body.length⟩ := by rw [Part.place, hblock, hstart]
    simp only [List.map_cons, List.map_nil, h.lastIndex?_label i hr, hplace]
    rfl
  | none =>
    rw [(hq.nextCut?_of_none hnext).1, List.map_map]
    refine List.map_congr_left fun t ht => ?_
    obtain ⟨c, hc, rfl⟩ := getElem?_idxOf_of_mem ((h.blocks b (List.mem_of_getElem? hb)).targets t ht)
    obtain ⟨r, hr, hlabel, hblock, hstart⟩ :
        ∃ r ∈ f.parts marker, r.label = c.label ∧ r.block = f.labels.idxOf c.label ∧ r.start = 0 :=
      exists_mem_parts (List.mk_mem_zipIdx_iff_getElem?.mpr hc)
    have hplace : r.place i = ⟨i, f.labels.idxOf c.label, 0⟩ := by rw [Part.place, hblock, hstart]
    rw [← hlabel, h.lastIndex?_label i hr, hplace, hlabel]
    rfl

end WellFormed

end Function

namespace Program

variable {marker : String} {p : Program} {f : Function} {i : Nat} {q r : Position}

theorem heads_eq_flatMap (marker : String) (p : Program) :
    p.heads marker = p.functions.zipIdx.flatMap fun x => x.1.heads marker x.2 := by
  rw [heads, positions, List.filter_flatMap]
  refine List.flatMap_congr fun x hf => ?_
  obtain ⟨f, i⟩ := x
  rw [List.filter_flatMap]
  refine List.flatMap_congr fun y hb => ?_
  obtain ⟨b, j⟩ := y
  rw [List.filter_map]
  refine congrArg _ (List.filter_congr fun k _ => ?_)
  have hat : p.At ⟨i, j, k⟩ f b :=
    ⟨List.mk_mem_zipIdx_iff_getElem?.mp hf, List.mk_mem_zipIdx_iff_getElem?.mp hb⟩
  simp only [Function.comp, hat.instruction?]
  rfl

theorem mem_function_heads_iff (hf : p.functions[i]? = some f) :
    q ∈ f.heads marker i ↔ q ∈ p.heads marker ∧ q.function = i := by
  simp only [mem_heads_iff, Function.heads, Block.cuts, List.mem_flatMap, List.mem_map, List.mem_filter, List.mem_range,
    Prod.exists, List.mk_mem_zipIdx_iff_getElem?, Bool.or_eq_true, decide_eq_true_eq]
  constructor
  · rintro ⟨b, j, hb, k, ⟨hk, hmark⟩, rfl⟩
    exact ⟨⟨f, b, ⟨hf, hb⟩, hk, hmark⟩, rfl⟩
  · rintro ⟨⟨f', b, ⟨hf', hb⟩, hk, hmark⟩, rfl⟩
    cases hf.symm.trans hf'
    exact ⟨b, q.block, hb, q.index, ⟨hk, hmark⟩, rfl⟩

/-- Control stays in its function. -/
theorem function_of_mem_onward (h : r ∈ p.onward marker q) : r.function = q.function := by
  unfold onward at h
  cases hf : p.functions[q.function]? with
  | none => simp [hf] at h
  | some f =>
    cases hb : f.blocks[q.block]? with
    | none => simp [hf, hb] at h
    | some b =>
      simp only [hf, hb, Option.bind_some, Option.map_some, Option.getD_some, Block.onward] at h
      split at h
      · cases List.mem_singleton.mp h
        rfl
      · obtain ⟨t, -, rfl⟩ := List.mem_map.mp h
        rfl

/-! ## The sites of heads -/

/-- What a head adds to the graph, for heads that are numbered in some way. -/
def site (marker : String) (p : Program) (number : Position → Vertex) (q : Position) : Site :=
  ⟨number q, (p.onward marker q).map fun r => some (number r), ((p.instruction? q).bind (·.tracepoint? marker)).toList⟩

theorem site_congr {number number' : Position → Vertex} (hq : number q = number' q)
    (hr : ∀ r ∈ p.onward marker q, number r = number' r) : p.site marker number q = p.site marker number' q := by
  simp only [site, hq, Site.mk.injEq, true_and, and_true]
  exact List.map_congr_left fun r h => by rw [hr r h]

/-- **One function**: the sites of its parts are those of its heads. -/
theorem sites_split_function (hf : p.functions[i]? = some f) (h : f.WellFormed) (base : Nat) :
    (f.split marker).1.sites marker base =
      (f.heads marker i).map (p.site marker fun q => base + (f.heads marker i).idxOf q) := by
  rw [Function.sites, f.blocks_split, List.map_map, h.heads_eq_map_place, List.map_map, ← h.heads_eq_map_place]
  refine List.map_congr_left fun q hq => ?_
  obtain ⟨b, hb, hfits⟩ := fits_of_mem_parts (fun b hb => (h.blocks b hb).body_ne_nil) hq
  replace hb := List.mk_mem_zipIdx_iff_getElem?.mp hb
  have hat : p.At (q.place i) f b := ⟨hf, hb⟩
  have htargets := congrArg (List.map (Option.map (base + ·))) (h.map_lastIndex?_successors i hb hfits)
  simp only [List.map_map] at htargets
  have hlabel : q.toBlock.label = q.label := rfl
  simp only [Function.comp, site, hlabel, h.lastIndex?_label i hq, hfits.tracepoints, hat.instruction?, hat.onward,
    Option.map_some, Option.getD_some, Site.mk.injEq, true_and]
  exact ⟨htargets, rfl⟩

/-- Functions that follow others, whose heads are `pre`. -/
theorem WellFormed.sitesFrom_split (h : p.WellFormed) {fs : List Function} {n : Nat} (pre : List Position)
    (hpre : ∀ q ∈ pre, q.function < n) (hfs : ∀ x ∈ fs.zipIdx n, p.functions[x.2]? = some x.1) :
    sitesFrom marker pre.length (fs.map fun f => (f.split marker).1) =
      ((fs.zipIdx n).flatMap fun x => x.1.heads marker x.2).map
        (p.site marker fun q => (pre ++ (fs.zipIdx n).flatMap fun x => x.1.heads marker x.2).idxOf q) := by
  induction fs generalizing n pre with
  | nil => rfl
  | cons f fs ih =>
    rw [List.zipIdx_cons, List.forall_mem_cons] at hfs
    obtain ⟨hf, hfs⟩ := hfs
    have hwf := h.functions f (List.mem_of_getElem? hf)
    rw [List.map_cons, sitesFrom, List.zipIdx_cons, List.flatMap_cons, List.map_append, sites_split_function hf hwf]
    congr 1
    · refine List.map_congr_left fun q hq => ?_
      have hnumber : ∀ r ∈ f.heads marker n, pre.length + (f.heads marker n).idxOf r =
          (pre ++ (f.heads marker n ++ (fs.zipIdx (n + 1)).flatMap fun x => x.1.heads marker x.2)).idxOf r := by
        intro r hr
        have hrpre : r ∉ pre := fun hmem => by
          have := hpre r hmem
          have := ((mem_function_heads_iff hf).mp hr).2
          omega
        rw [List.idxOf_append_of_notMem hrpre, List.idxOf_append_of_mem hr]
      refine site_congr (hnumber q hq) fun r hr => hnumber r ?_
      obtain ⟨hqp, hqn⟩ := (mem_function_heads_iff hf).mp hq
      obtain ⟨f', b, hat, -⟩ := mem_heads_iff.mp hqp
      exact (mem_function_heads_iff hf).mpr
        ⟨h.mem_heads_of_onward hat hr, (function_of_mem_onward hr).trans hqn⟩
    · have hlen : pre.length + (f.split marker).1.blocks.length = (pre ++ f.heads marker n).length := by
        rw [f.blocks_split, List.length_append, hwf.heads_eq_map_place, List.length_map, List.length_map]
      rw [hlen, ih (pre ++ f.heads marker n) ?_ hfs, List.append_assoc]
      intro q hq
      rcases List.mem_append.mp hq with hq | hq
      · exact Nat.lt_succ_of_lt (hpre q hq)
      · exact ((mem_function_heads_iff hf).mp hq).2 ▸ Nat.lt_succ_self n

/-- The vertex of a head is its number in the order of the text. -/
def vertex (marker : String) (p : Program) (q : Position) : Vertex := (p.heads marker).idxOf q

/-- **Sites**: those of the split program are those of the heads of the program. -/
theorem WellFormed.sites_split (h : p.WellFormed) :
    (p.split marker).program.sites marker = (p.heads marker).map (p.site marker (p.vertex marker)) := by
  have hsites := @WellFormed.sitesFrom_split marker p h p.functions 0 [] (by simp)
    fun x hx => List.mem_zipIdx_iff_getElem?.mp hx
  rw [← heads_eq_flatMap] at hsites
  exact hsites

end Program

/-! ## Edges and names -/

/-- Edges between vertices of a graph are added in order. -/
theorem Graph.addEdges_of_lt {edges : List (Vertex × Vertex)} (g : Graph)
    (h : ∀ e ∈ edges, e.1 < g.size ∧ e.2 < g.size) :
    ∃ g', g.addEdges edges = .ok g' ∧ g'.size = g.size ∧
      ∀ v, g'.successors v = g.successors v ++ (edges.filter (·.1 = v)).map Prod.snd := by
  induction edges generalizing g with
  | nil => exact ⟨g, rfl, rfl, by simp⟩
  | cons e edges ih =>
    obtain ⟨v, w⟩ := e
    rw [List.forall_mem_cons] at h
    obtain ⟨⟨hv, hw⟩, hedges⟩ := h
    obtain ⟨g', hok, hsize, hsucc⟩ := ih (g.insertEdge v w hw) (by simpa using hedges)
    refine ⟨g', ?_, hsize.trans (size_insertEdge ..), fun u => ?_⟩
    · have hadd : g.addEdge v w = .ok (g.insertEdge v w hw) := by simp_all [addEdge]
      simp only [addEdges, List.foldlM_cons]
      rw [hadd]
      exact hok
    · rw [hsucc, successors_insertEdge g hw hv, List.filter_cons]
      by_cases hu : u = v
      · simp [hu]
      · simp [hu, Ne.symm hu]

/-- Of the vertices that a name is given to, it stands for the last one. -/
theorem Labels.get?_ofList (bindings : List (String × Vertex)) (name : String) :
    (ofList bindings).get? name = (bindings.filter (·.1 = name)).getLast?.map Prod.snd := by
  have hfold : ∀ l : Labels, (bindings.foldl (fun l b => l.insert b.1 b.2) l).get? name =
      ((bindings.filter (·.1 = name)).getLast?.map Prod.snd).or (l.get? name) := by
    induction bindings with
    | nil => intro l; rfl
    | cons b bindings ih =>
      intro l
      obtain ⟨n, v⟩ := b
      rw [List.foldl_cons, ih, get?_insert, List.filter_cons]
      by_cases hn : n = name
      · simp only [hn, if_true, decide_true]
        cases hb : bindings.filter (·.1 = name) with
        | nil => rfl
        | cons c cs => simp [List.getLast?_cons]
      · simp [hn, Ne.symm hn]
  exact (hfold empty).trans (Option.or_none)

/-- A tracepoint call is a head. -/
theorem Program.lastCall?_eq_getLast?_heads (p : Program) (marker name : String) :
    p.lastCall? marker name =
      ((p.heads marker).filter fun q => (p.instruction? q).bind (·.tracepoint? marker) = some name).getLast? := by
  rw [lastCall?, heads, List.filter_filter]
  refine congrArg _ (List.filter_congr fun q _ => ?_)
  cases hi : p.instruction? q with
  | none => simp
  | some i =>
    by_cases ht : i.tracepoint? marker = some name
    · simp [ht, Instruction.isTracepoint]
    · simp [ht]

/-! ## The whole graph -/

/-- The graph has the heads of a program for its vertices, edges from each to those ahead, and the last call of each
tracepoint for the vertex of its name. -/
structure FlowGraph.Charts (marker : String) (p : Program) (g : FlowGraph) : Prop where
  size : g.graph.size = (p.heads marker).length
  successors : ∀ q ∈ p.heads marker,
    g.graph.successors (p.vertex marker q) = (p.onward marker q).map (p.vertex marker)
  labels : ∀ name, g.labels.get? name = (p.lastCall? marker name).map (p.vertex marker)

namespace Program

variable {marker : String} {p : Program}

theorem length_sites (marker : String) (p : Program) : (p.sites marker).length = p.blockNames.length := by
  have hfrom : ∀ (fs : List Function) (base : Nat), (sitesFrom marker base fs).length =
      (fs.flatMap fun f => f.blocks.map fun b => (⟨f.name, b.label⟩ : BlockName)).length := by
    intro fs
    induction fs with
    | nil => intro base; rfl
    | cons f fs ih => intro base; simp [sitesFrom, Function.sites, ih]
  exact hfrom p.functions 0

theorem length_sites_eq_blockCount (marker : String) (p : Program) : (p.sites marker).length = p.blockCount := by
  simp [length_sites, blockNames, blockCount, List.length_flatMap]

theorem vertex_lt {q : Position} (h : q ∈ p.heads marker) : p.vertex marker q < (p.heads marker).length :=
  List.idxOf_lt_length_of_mem h

theorem vertex_inj {q r : Position} (hq : q ∈ p.heads marker) (h : p.vertex marker q = p.vertex marker r) : q = r :=
  (List.idxOf_inj hq).mp h

/-- The head that is a vertex of the graph. -/
def headAt (marker : String) (p : Program) (v : Vertex) : Position := (p.heads marker).getD v ⟨0, 0, 0⟩

theorem headAt_vertex {q : Position} (hq : q ∈ p.heads marker) : p.headAt marker (p.vertex marker q) = q := by
  have hlt := vertex_lt hq
  rw [headAt, List.getD_eq_getElem?_getD, List.getElem?_eq_getElem hlt]
  exact List.getElem_idxOf hlt

theorem exists_vertex_eq {v : Vertex} (hv : v < (p.heads marker).length) :
    ∃ q ∈ p.heads marker, p.vertex marker q = v :=
  ⟨(p.heads marker)[v], List.getElem_mem hv, (p.nodup_heads marker).idxOf_getElem v hv⟩

/-- Among lists for members that differ, those that belong to one of them are its own. -/
theorem filter_flatMap_of_nodup {H : List Position} (hH : H.Nodup) {q : Position} (hq : q ∈ H)
    {number : Position → Vertex} (hnumber : ∀ r ∈ H, number r = number q → r = q) (ahead : Position → List Vertex) :
    ((H.flatMap fun r => (ahead r).map fun w => (number r, w)).filter (·.1 = number q)).map Prod.snd = ahead q := by
  obtain ⟨pre, post, rfl⟩ := List.append_of_mem hq
  have hnone : ∀ l : List Position, (∀ r ∈ l, r ∈ pre ++ q :: post ∧ r ≠ q) →
      (l.flatMap fun r => (ahead r).map fun w => (number r, w)).filter (·.1 = number q) = [] := by
    intro l hl
    simp only [List.filter_eq_nil_iff, List.mem_flatMap, List.mem_map, decide_eq_true_eq]
    rintro - ⟨r, hr, w, -, rfl⟩ heq
    exact (hl r hr).2 (hnumber r (hl r hr).1 heq)
  rw [List.nodup_append, List.nodup_cons] at hH
  obtain ⟨-, ⟨hpost, -⟩, hpre⟩ := hH
  rw [List.flatMap_append, List.flatMap_cons, List.filter_append, List.filter_append,
    hnone pre fun r hr => ⟨List.mem_append_left _ hr, hpre r hr q List.mem_cons_self⟩,
    hnone post fun r hr => ⟨List.mem_append_right _ (List.mem_cons_of_mem _ hr), fun h => hpost (h ▸ hr)⟩]
  simp [List.filter_map, Function.comp_def]

/-- The calls of the heads that bear a name. -/
theorem filter_calls_eq (H : List Position) (name : String) (number : Position → Vertex) :
    (((H.map (p.site marker number)).flatMap Site.calls).filter (·.1 = name)) =
      (H.filter fun q => (p.instruction? q).bind (·.tracepoint? marker) = some name).map fun q => (name, number q) := by
  induction H with
  | nil => rfl
  | cons q H ih =>
    rw [List.map_cons, List.flatMap_cons, List.filter_append, ih, List.filter_cons]
    simp only [site, Site.calls]
    cases ht : (p.instruction? q).bind (·.tracepoint? marker) with
    | none => simp
    | some n =>
      by_cases hn : n = name
      · simp [hn]
      · simp [hn]

/-- The edges from all heads to those ahead. -/
def arrows (marker : String) (p : Program) : List (Vertex × Vertex) :=
  (p.heads marker).flatMap fun q => ((p.onward marker q).map (p.vertex marker)).map fun w => (p.vertex marker q, w)

theorem edges_sites (marker : String) (p : Program) :
    ((p.heads marker).map (p.site marker (p.vertex marker))).flatMap Site.edges = p.arrows marker := by
  rw [List.flatMap_map]
  refine List.flatMap_congr fun q _ => ?_
  simp [site, Site.edges, Function.comp_def]

theorem WellFormed.lt_of_mem_arrows (h : p.WellFormed) {e : Vertex × Vertex} (he : e ∈ p.arrows marker) :
    e.1 < (p.heads marker).length ∧ e.2 < (p.heads marker).length := by
  simp only [arrows, List.mem_flatMap, List.mem_map] at he
  obtain ⟨q, hq, w, ⟨r, hr, rfl⟩, rfl⟩ := he
  obtain ⟨f, b, hat, -⟩ := mem_heads_iff.mp hq
  exact ⟨vertex_lt hq, vertex_lt (h.mem_heads_of_onward hat hr)⟩

/-- All targets of heads are found. -/
theorem takeWhile_complete_sites (marker : String) (p : Program) (H : List Position) (number : Position → Vertex) :
    (H.map (p.site marker number)).takeWhile Site.complete = H.map (p.site marker number) := by
  refine List.takeWhile_eq_self_iff.mpr fun s hs => ?_
  obtain ⟨q, -, rfl⟩ := List.mem_map.mp hs
  simp [site, Site.complete]

/-- The graph and the names in it depend on the sites only. -/
theorem build_of_sites_eq {p' : Program} {g : FlowGraph} (hsites : p'.sites marker = p.sites marker)
    (h : (FlowGraph.build marker p).value = .ok g) :
    (FlowGraph.build marker p').value = .ok ⟨g.graph, g.labels, p'.blockNames⟩ := by
  have hlen : p'.blockNames.length = p.blockNames.length := by
    rw [← length_sites marker, ← length_sites marker, hsites]
  rw [FlowGraph.build] at h ⊢
  simp only [hsites, hlen]
  dsimp only at h
  split at h
  · cases h
  · rename_i hdone
    rw [if_neg hdone]
    cases hedges : Graph.ofEdges p.blockNames.length ((p.sites marker).flatMap Site.edges) with
    | error e => simp [hedges] at h
    | ok graph =>
      simp only [hedges, Except.ok.injEq] at h
      subst h
      rfl

/-- **The control-flow graph** of a split program is that of the heads of the program. -/
theorem WellFormed.build_split (h : p.WellFormed) (marker : String) :
    ∃ g, (FlowGraph.build marker (p.split marker).program).value = .ok g ∧ g.Charts marker p := by
  have hsites : (p.split marker).program.sites marker = _ := h.sites_split
  have hlen : (p.split marker).program.blockNames.length = (p.heads marker).length := by
    rw [← length_sites marker, hsites, List.length_map]
  obtain ⟨g, hok, hsize, hsucc⟩ : ∃ g, Graph.ofEdges (p.heads marker).length (p.arrows marker) = .ok g ∧ _ :=
    (Graph.withVertices (p.heads marker).length).addEdges_of_lt fun e he => by simpa using h.lt_of_mem_arrows he
  refine ⟨⟨g, Labels.ofList (((p.heads marker).map (p.site marker (p.vertex marker))).flatMap Site.calls),
    (p.split marker).program.blockNames⟩, ?_, ?_, ?_, ?_⟩
  · rw [FlowGraph.build]
    simp only [hsites, takeWhile_complete_sites, edges_sites, hlen, Nat.lt_irrefl, if_false, hok]
  · simpa using hsize
  · intro q hq
    rw [hsucc, Graph.successors_withVertices, List.nil_append]
    exact filter_flatMap_of_nodup (nodup_heads marker p) hq (fun r hr heq => vertex_inj hr heq) _
  · intro name
    rw [Labels.get?_ofList, filter_calls_eq, lastCall?_eq_getLast?_heads, List.getLast?_map, Option.map_map]
    rfl

end Program

end Waymark
