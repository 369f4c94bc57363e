import Waymark.Proofs.BlockGraph
import Waymark.Proofs.Program.SplitRules
import Waymark.Proofs.Repetitions

/-!
# What tracepoints stand for

The blocks of a program are gone through once, and every call of a tracepoint lets its name stand for the block of the
call. So in the end a name stands for the block of its last call (`Program.get?_insertAll_callsAt`), while the names
keep the order of their first calls (`Program.map_fst_insertAll_callsAt`). On the way a name moves wherever a call follows
one of the same name in another block (`Program.moves`), and each move is a warning with both blocks.

The calls that the graph is built from are those of the text, each with the number of its block
(`Program.WellFormed.calls_sites`). What is said of them is proved by adding one call at the end.
-/

namespace Waymark

/-- What a list gives, looked for at its places. -/
theorem filterMap_eq_filterMap_range {α β : Type} (g : α → Option β) (l : List α) :
    l.filterMap g = (List.range l.length).filterMap fun k => l[k]?.bind g := by
  induction l with
  | nil => rfl
  | cons a l ih =>
    rw [List.length_cons, List.range_succ_eq_map, List.filterMap_cons, List.filterMap_cons, List.filterMap_map, ih]
    rfl

/-- A tracepoint is a call of the marker with a name behind it. -/
theorem Instruction.tracepoint?_eq_some_iff {marker name : String} {i : Instruction} :
    i.tracepoint? marker = some name ↔ i = .call (marker ++ name) ∧ name ≠ "" := by
  cases i with
  | call callee =>
    simp only [tracepoint?, call.injEq]
    constructor
    · intro h
      split at h
      next c cs hc =>
        rw [Option.some.injEq] at h
        subst h
        rw [List.isPrefixOf?_eq_some_iff_append_eq] at hc
        constructor
        · apply String.toList_injective
          rw [← hc, String.toList_append, String.toList_ofList]
        · intro h
          simpa using congrArg String.toList h
      next => cases h
    · rintro ⟨rfl, hn⟩
      have hp : marker.toList.isPrefixOf? (marker ++ name).toList = some name.toList := by
        rw [List.isPrefixOf?_eq_some_iff_append_eq, String.toList_append]
      rw [hp]
      cases hl : name.toList with
      | nil => exact absurd (String.toList_injective (by rw [hl]; rfl)) hn
      | cons c cs => simp [← hl]
  | _ => simp [tracepoint?]

/-! ## Calls and moves -/

namespace Program

variable {p : Program} {f f' : Function} {b b' : Block} {q r : Position} {qs : List Position} {marker name : String}

/-- The name of the tracepoint that is called at a position. -/
def tracepointAt? (p : Program) (marker : String) (q : Position) : Option String :=
  (p.instruction? q).bind (·.tracepoint? marker)

/-- The last call of a tracepoint at some positions. -/
def lastCallAt? (p : Program) (marker name : String) (qs : List Position) : Option Position :=
  (qs.filter fun r => p.tracepointAt? marker r = some name).getLast?

/-- The name of the block that a position lies in. -/
def blockName? (p : Program) (q : Position) : Option BlockName := do
  let f ← p.functions[q.function]?
  let b ← f.blocks[q.block]?
  return ⟨f.name, b.label⟩

/-- A call of a tracepoint, with the one before it. -/
structure Move where
  name : String
  previous : Position
  current : Position
  deriving DecidableEq

/-- The move to a call behind some positions, if the call before it lies in another block. -/
def move? (p : Program) (marker : String) (before : List Position) (q : Position) : Option Move := do
  let name ← p.tracepointAt? marker q
  let r ← p.lastCallAt? marker name before
  if r.function = q.function ∧ r.block = q.block then none else some ⟨name, r, q⟩

/-- The moves along some positions. -/
def movesAt (p : Program) (marker : String) (qs : List Position) : List Move :=
  qs.filterMap fun q => p.move? marker (qs.takeWhile (· ≠ q)) q

/-- All moves, in the order of the text. -/
def moves (p : Program) (marker : String) : List Move := p.movesAt marker p.positions

/-- The warning of a move names both blocks. -/
def Move.event? (p : Program) (m : Move) : Option Event := do
  let previous ← p.blockName? m.previous
  let current ← p.blockName? m.current
  return .rebound m.name previous current

theorem At.blockName? (h : p.At q f b) : p.blockName? q = some ⟨f.name, b.label⟩ := by
  simp [Program.blockName?, h.1, h.2]

theorem At.blockVertex_eq_iff (hq : p.At q f b) (hr : p.At r f' b') :
    p.blockVertex q = p.blockVertex r ↔ q.function = r.function ∧ q.block = r.block := by
  have hlt := hq.blockVertex_lt_iff hr
  have hgt := hr.blockVertex_lt_iff hq
  omega

theorem calls_iff : p.Calls marker name q ↔ name ≠ "" ∧ p.instruction? q = some (.call (marker ++ name)) := by
  rw [Calls, Option.bind_eq_some_iff]
  simp only [Instruction.tracepoint?_eq_some_iff]
  constructor
  · rintro ⟨i, hi, rfl, hname⟩
    exact ⟨hname, hi⟩
  · rintro ⟨hname, hi⟩
    exact ⟨_, hi, rfl, hname⟩

/-- Of calls in the order of the text, the last one follows all others. -/
theorem before_getLast {q : Position} (h : qs.Pairwise Position.Before) (hq : qs.getLast? = some q) (hr : r ∈ qs) :
    r = q ∨ r.Before q := by
  obtain ⟨front, rfl⟩ := List.getLast?_eq_some_iff.mp hq
  rw [List.pairwise_append] at h
  rcases List.mem_append.mp hr with hr | hr
  · exact .inr (h.2.2 r hr q List.mem_cons_self)
  · exact .inl (List.mem_singleton.mp hr)

theorem isSome_lastCall?_iff : (p.lastCall? marker name).isSome = true ↔ ∃ q, p.Calls marker name q := by
  rw [Option.isSome_iff_exists]
  constructor
  · rintro ⟨q, hq⟩
    exact ⟨q, calls_of_lastCall? hq⟩
  · rintro ⟨q, hq⟩
    have hmem := mem_calls_iff.mpr hq
    exact ⟨_, List.getLast?_eq_some_getLast (List.ne_nil_of_mem hmem)⟩

theorem lastCall?_eq_some_iff :
    p.lastCall? marker name = some q ↔ p.Calls marker name q ∧ ∀ r, p.Calls marker name r → r = q ∨ r.Before q := by
  have hsorted := p.pairwise_positions.filter fun r => (p.instruction? r).bind (·.tracepoint? marker) = some name
  constructor
  · exact fun h => ⟨calls_of_lastCall? h, fun r hr => before_getLast hsorted h (mem_calls_iff.mpr hr)⟩
  · rintro ⟨hq, hlast⟩
    obtain ⟨s, hs⟩ := Option.isSome_iff_exists.mp (isSome_lastCall?_iff.mpr ⟨q, hq⟩)
    rcases hlast s (calls_of_lastCall? hs) with hsq | hsq
    · rw [hs, hsq]
    · rcases before_getLast hsorted hs (mem_calls_iff.mpr hq) with hqs | hqs
      · rw [hs, hqs]
      · exact absurd hqs hsq.asymm

/-! ## The calls of the sites -/

/-- The calls at some positions, with the numbers of their blocks. -/
def callsAt (p : Program) (marker : String) (qs : List Position) : List (String × Vertex) :=
  qs.filterMap fun q => (p.tracepointAt? marker q).map fun name => (name, p.blockVertex q)

/-- The calls of a block. -/
theorem At.calls_blockSite (h : p.At q f b) (hf : f.WellFormed) (marker : String) :
    (blockSite marker (p.base q.function) f.labels b).calls =
      p.callsAt marker ((List.range b.body.length).map fun k => ⟨q.function, q.block, k⟩) := by
  obtain ⟨j, hj, hvertex⟩ := vertex_blockSite marker (p.base q.function) (List.mem_of_getElem? h.2)
  cases (hf.bearer?_eq h.2).symm.trans hj
  have htracepoints : (blockSite marker (p.base q.function) f.labels b).tracepoints = b.tracepoints marker := rfl
  rw [Site.calls, htracepoints, hvertex, Block.tracepoints, filterMap_eq_filterMap_range, List.map_filterMap, callsAt,
    List.filterMap_map]
  refine List.filterMap_congr fun k _ => ?_
  have hat : p.At ⟨q.function, q.block, k⟩ f b := h
  simp only [Function.comp, tracepointAt?, hat.instruction?]
  rfl

/-- The calls of a function. -/
theorem calls_sites_function {i : Nat} (hi : p.functions[i]? = some f) (hf : f.WellFormed) (marker : String) :
    (f.sites marker (p.base i)).flatMap Site.calls =
      p.callsAt marker (f.blocks.zipIdx.flatMap fun y => (List.range y.1.body.length).map fun k => ⟨i, y.2, k⟩) := by
  have hsites : f.sites marker (p.base i) =
      (f.blocks.zipIdx.map Prod.fst).map (blockSite marker (p.base i) f.labels) := by
    rw [List.zipIdx_map_fst]
    rfl
  rw [hsites, List.flatMap_map, List.flatMap_map, callsAt, List.filterMap_flatMap]
  refine List.flatMap_congr fun y hy => ?_
  have hat : p.At ⟨i, y.2, 0⟩ f y.1 := ⟨hi, List.mem_zipIdx_iff_getElem?.mp hy⟩
  exact hat.calls_blockSite hf marker

/-- **The calls of a well-formed program**, in the order of the text. -/
theorem WellFormed.calls_sites (h : p.WellFormed) (marker : String) :
    (p.sites marker).flatMap Site.calls = p.callsAt marker p.positions := by
  have hfrom : ∀ (fs : List Function) (n : Nat), (∀ x ∈ fs.zipIdx n, p.functions[x.2]? = some x.1) →
      (sitesFrom marker (p.base n) fs).flatMap Site.calls =
        p.callsAt marker ((fs.zipIdx n).flatMap fun x => x.1.blocks.zipIdx.flatMap fun y =>
          (List.range y.1.body.length).map fun k => ⟨x.2, y.2, k⟩) := by
    intro fs
    induction fs with
    | nil => exact fun n _ => rfl
    | cons f fs ih =>
      intro n hfs
      rw [List.zipIdx_cons, List.forall_mem_cons] at hfs
      obtain ⟨hf, hfs⟩ := hfs
      have hwf := h.functions f (List.mem_of_getElem? hf)
      have hbase : p.base n + f.blocks.length = p.base (n + 1) := (base_succ hf).symm
      rw [sitesFrom, List.flatMap_append, calls_sites_function hf hwf, hbase, ih (n + 1) hfs, List.zipIdx_cons,
        List.flatMap_cons, callsAt, callsAt, callsAt, List.filterMap_append]
  exact hfrom p.functions 0 fun x hx => List.mem_zipIdx_iff_getElem?.mp hx

/-! ## Adding one call -/

theorem callsAt_concat (p : Program) (marker : String) (qs : List Position) (q : Position) :
    p.callsAt marker (qs ++ [q]) =
      p.callsAt marker qs ++ ((p.tracepointAt? marker q).map fun name => (name, p.blockVertex q)).toList := by
  rw [callsAt, callsAt, List.filterMap_append]
  cases h : p.tracepointAt? marker q <;> simp [h]

theorem lastCallAt?_concat (p : Program) (marker name : String) (qs : List Position) (q : Position) :
    p.lastCallAt? marker name (qs ++ [q]) =
      if p.tracepointAt? marker q = some name then some q else p.lastCallAt? marker name qs := by
  rw [lastCallAt?, lastCallAt?, List.filter_append]
  by_cases h : p.tracepointAt? marker q = some name
  · simp [h]
  · simp [h]

/-- A name stands for the block of its last call. -/
theorem get?_insertAll_callsAt (p : Program) (marker : String) (qs : List Position) (name : String) :
    (Labels.empty.insertAll (p.callsAt marker qs)).get? name = (p.lastCallAt? marker name qs).map p.blockVertex := by
  induction qs using List.reverseRecOn with
  | nil => rfl
  | append_singleton qs q ih =>
    rw [callsAt_concat, lastCallAt?_concat]
    cases hq : p.tracepointAt? marker q with
    | none => simp [ih]
    | some n =>
      rw [Option.map_some, Option.toList_some, Labels.insertAll_concat, Labels.get?_insert, ih]
      by_cases hn : name = n
      · simp [hn]
      · simp [hn, Ne.symm hn]

/-- The names stand in the order of their first calls. -/
theorem map_fst_insertAll_callsAt (p : Program) (marker : String) (qs : List Position) :
    (Labels.empty.insertAll (p.callsAt marker qs)).bindings.map Prod.fst =
      (qs.filterMap (p.tracepointAt? marker)).eraseDups := by
  induction qs using List.reverseRecOn with
  | nil => rfl
  | append_singleton qs q ih =>
    rw [callsAt_concat, List.filterMap_append]
    cases hq : p.tracepointAt? marker q with
    | none => simp [hq, ih]
    | some name =>
      have hsingle : [q].filterMap (p.tracepointAt? marker) = [name] := by simp [hq]
      rw [Option.map_some, Option.toList_some, Labels.insertAll_concat, Labels.map_fst_insert, ih, hsingle,
        eraseDups_concat]
      simp only [List.mem_eraseDups]

/-- A move with the numbers of its blocks. -/
def Move.rebinding (p : Program) (m : Move) : Rebinding :=
  ⟨m.name, p.blockVertex m.previous, p.blockVertex m.current⟩

/-- **One call** moves its name if the last one of the same name lies in another block. -/
theorem rebindings_call (hqs : ∀ r ∈ qs, r ∈ p.positions) (hq : q ∈ p.positions) :
    rebindings (Labels.empty.insertAll (p.callsAt marker qs))
        ((p.tracepointAt? marker q).map fun name => (name, p.blockVertex q)).toList =
      ((p.move? marker qs q).map (Move.rebinding p)).toList := by
  rw [move?]
  cases hname : p.tracepointAt? marker q with
  | none => rfl
  | some name =>
    rw [Option.map_some, Option.toList_some, rebindings, get?_insertAll_callsAt]
    cases hr : p.lastCallAt? marker name qs with
    | none => simp [hr, rebindings]
    | some r =>
      obtain ⟨f, b, hat, -⟩ := mem_positions_iff.mp hq
      obtain ⟨f', b', hat', -⟩ := mem_positions_iff.mp (hqs r (List.mem_of_mem_filter (List.mem_of_getLast? hr)))
      have hsame := hat'.blockVertex_eq_iff hat
      by_cases h : p.blockVertex r = p.blockVertex q
      · simp [hsame.mp h, h, rebindings, hr]
      · simp [mt hsame.mpr h, h, rebindings, hr, Move.rebinding]

/-- The moves along positions with one more at the end. -/
theorem movesAt_concat (p : Program) (marker : String) (hq : q ∉ qs) :
    p.movesAt marker (qs ++ [q]) = p.movesAt marker qs ++ (p.move? marker qs q).toList := by
  have hfront : ∀ r ∈ qs, (qs ++ [q]).takeWhile (· ≠ r) = qs.takeWhile (· ≠ r) := by
    intro r hr
    have hstops : ((qs.takeWhile (· ≠ r)).length ≠ qs.length) := by
      intro hlength
      have hall := List.takeWhile_eq_self_iff.mp ((List.takeWhile_prefix _).eq_of_length hlength) r hr
      simp at hall
    rw [List.takeWhile_append, if_neg hstops]
  have hlast : (qs ++ [q]).takeWhile (· ≠ q) = qs := by
    have hne : ∀ r ∈ qs, decide (r ≠ q) = true := fun r hr => decide_eq_true (ne_of_mem_of_not_mem hr hq)
    rw [List.takeWhile_append_of_pos hne]
    simp
  rw [movesAt, movesAt, List.filterMap_append]
  congr 1
  · exact List.filterMap_congr fun r hr => by rw [hfront r hr]
  · rw [List.filterMap_cons, hlast]
    cases p.move? marker qs q <;> rfl

/-- **All calls** move their names along the moves of the text. -/
theorem rebindings_callsAt (h : qs.Nodup) (hqs : ∀ r ∈ qs, r ∈ p.positions) :
    rebindings .empty (p.callsAt marker qs) = (p.movesAt marker qs).map (Move.rebinding p) := by
  induction qs using List.reverseRecOn with
  | nil => rfl
  | append_singleton qs q ih =>
    rw [List.nodup_append] at h
    have hq : q ∉ qs := fun hmem => h.2.2 q hmem q List.mem_cons_self rfl
    have hfront : ∀ r ∈ qs, r ∈ p.positions := fun r hr => hqs r (List.mem_append_left _ hr)
    -- the last call is compared with the table of all calls in front of it
    rw [callsAt_concat, rebindings_append, ih h.1 hfront, rebindings_call hfront (hqs q (by simp)),
      movesAt_concat p marker hq, List.map_append]
    cases p.move? marker qs q <;> rfl

/-! ## Warnings -/

variable {m : Move}

theorem mem_positions_of_mem_moves (h : m ∈ p.moves marker) : m.previous ∈ p.positions ∧ m.current ∈ p.positions := by
  obtain ⟨q, hq, hm⟩ := List.mem_filterMap.mp h
  simp only [move?, bind, Option.bind_eq_some_iff, Option.ite_none_left_eq_some, Option.some.injEq] at hm
  obtain ⟨name, -, r, hr, -, rfl⟩ := hm
  have hbefore : r ∈ p.positions.takeWhile (· ≠ q) := List.mem_of_mem_filter (List.mem_of_getLast? hr)
  exact ⟨(List.takeWhile_prefix _).subset hbefore, hq⟩

/-- A move is told by the names of its two blocks. -/
theorem exists_event (h : m ∈ p.moves marker) :
    ∃ previous current, (m.rebinding p).event? p.blockNames = some (.rebound m.name previous current) ∧
      m.event? p = some (.rebound m.name previous current) := by
  obtain ⟨hprevious, hcurrent⟩ := mem_positions_of_mem_moves h
  obtain ⟨f, b, hat, -⟩ := mem_positions_iff.mp hprevious
  obtain ⟨f', b', hat', -⟩ := mem_positions_iff.mp hcurrent
  refine ⟨⟨f.name, b.label⟩, ⟨f'.name, b'.label⟩, ?_, ?_⟩
  · simp only [Rebinding.event?, Move.rebinding, hat.getElem?_blockNames, hat'.getElem?_blockNames]
  · simp [Move.event?, hat.blockName?, hat'.blockName?]

/-- The events of all moves. -/
theorem filterMap_event? (p : Program) (marker : String) :
    let events := ((p.moves marker).map (Move.rebinding p)).filterMap (Rebinding.event? p.blockNames)
    events.map some = (p.moves marker).map (Move.event? p) ∧ ∀ e ∈ events, e.level = .warn := by
  have hevents : ∀ ms : List Move, (∀ m ∈ ms, m ∈ p.moves marker) →
      ((ms.map (Move.rebinding p)).filterMap (Rebinding.event? p.blockNames)).map some = ms.map (Move.event? p) ∧
        ∀ e ∈ (ms.map (Move.rebinding p)).filterMap (Rebinding.event? p.blockNames), e.level = .warn := by
    intro ms hms
    induction ms with
    | nil => simp
    | cons m ms ih =>
      rw [List.forall_mem_cons] at hms
      obtain ⟨previous, current, hrebinding, hmove⟩ := exists_event hms.1
      obtain ⟨hmap, hlevel⟩ := ih hms.2
      rw [List.map_cons, List.map_cons, List.filterMap_cons, hrebinding, List.map_cons, hmap, hmove,
        List.forall_mem_cons]
      exact ⟨rfl, rfl, hlevel⟩
  exact hevents (p.moves marker) fun _ h => h

end Program

/-! ## The whole table -/

namespace FlowGraph

open Program

variable {p : Program}

/-- The table and the warnings of a well-formed program. -/
theorem build_labels (h : p.WellFormed) (marker : String) :
    ∃ g, (build marker p).value = .ok g ∧ g.labels = Labels.empty.insertAll (p.callsAt marker p.positions) ∧
      ((build marker p).events.filter (·.level = .warn)).map some = (p.moves marker).map (Move.event? p) := by
  obtain ⟨B, -, hB, hbuild⟩ := exists_building (fun f hf => (h.functions f hf).targetsFound) marker
  rw [h.calls_sites] at hB
  have hevents : B.events = ((p.moves marker).map (Move.rebinding p)).filterMap (Rebinding.event? p.blockNames) := by
    rw [hB.events, rebindings_callsAt p.nodup_positions fun _ hr => hr]
    rfl
  obtain ⟨hmap, hwarn⟩ := p.filterMap_event? marker
  refine ⟨⟨B.graph, B.labels, B.blocks⟩, by rw [hbuild], hB.labels, ?_⟩
  have hfilter : (B.events ++ [Event.built B.graph.size B.graph.edgeCount B.labels.size]).filter
      (fun e => e.level = .warn) = B.events := by
    rw [List.filter_append, List.filter_eq_self.mpr fun e he => decide_eq_true (hwarn e (hevents ▸ he))]
    exact List.append_nil _
  rw [hbuild, hfilter, hevents]
  exact hmap

/-- **What tracepoints stand for**, in a verified program and after it is split: a name stands for a block if some call
has it behind the marker, and the block is that of its last call. The names are listed in the order of their first
calls, and each call that follows one of the same name in another block is one warning. -/
theorem build_resolves_tracepoints {p' : Program} (h : p.verify = .ok ())
    (hp' : p' = p ∨ ∃ m, p' = (p.split m).program) (marker : String) :
    ∃ g, (build marker p').value = .ok g ∧ g.Depicts p' ∧
      (∀ t, g.labels.contains t = true ↔ t ≠ "" ∧ ∃ q, p'.instruction? q = some (.call (marker ++ t))) ∧
      (∀ t v, g.labels.get? t = some v ↔ t ≠ "" ∧ ∃ q, p'.instruction? q = some (.call (marker ++ t)) ∧
        (∀ r, p'.instruction? r = some (.call (marker ++ t)) → r = q ∨ r.Before q) ∧ v = p'.blockVertex q) ∧
      g.labels.bindings.map Prod.fst = (p'.positions.filterMap (p'.tracepointAt? marker)).eraseDups ∧
      ((build marker p').events.filter (·.level = .warn)).map some = (p'.moves marker).map (Move.event? p') := by
  have hwf : p'.WellFormed := by
    rcases hp' with rfl | ⟨m, rfl⟩
    · exact verify_eq_ok_iff.mp h
    · exact (verify_eq_ok_iff.mp h).split m
  obtain ⟨g, hg, hlabels, hwarnings⟩ := build_labels hwf marker
  obtain ⟨g', hg', hdepicts⟩ := depicts_of_targetsFound (fun f hf => (hwf.functions f hf).targetsFound) marker
  cases hg.symm.trans hg'
  have hget : ∀ t, g.labels.get? t = (p'.lastCall? marker t).map p'.blockVertex := fun t => by
    rw [hlabels, get?_insertAll_callsAt]
    rfl
  have hlast : ∀ t v, g.labels.get? t = some v ↔ t ≠ "" ∧ ∃ q, p'.instruction? q = some (.call (marker ++ t)) ∧
      (∀ r, p'.instruction? r = some (.call (marker ++ t)) → r = q ∨ r.Before q) ∧ v = p'.blockVertex q := by
    intro t v
    rw [hget, Option.map_eq_some_iff]
    simp only [lastCall?_eq_some_iff, calls_iff]
    constructor
    · rintro ⟨q, ⟨⟨ht, hq⟩, hrest⟩, rfl⟩
      exact ⟨ht, q, hq, fun r hr => hrest r ⟨ht, hr⟩, rfl⟩
    · rintro ⟨ht, q, hq, hrest, rfl⟩
      exact ⟨q, ⟨⟨ht, hq⟩, fun r hr => hrest r hr.2⟩, rfl⟩
  refine ⟨g, hg, hdepicts, fun t => ?_, hlast, ?_, hwarnings⟩
  · rw [Labels.contains, hget, Option.isSome_map, isSome_lastCall?_iff]
    simp only [calls_iff, exists_and_left]
  · rw [hlabels, map_fst_insertAll_callsAt]

/-- Three blocks call `x` in turn, the first one twice; `xy` only starts with the same letter, and the marker alone is
no tracepoint. Once the first block is split between its calls, there is one more warning. -/
theorem build_resolves_tracepoints_moves :
    let p : Program := ⟨[⟨"f", [⟨"a", [.call "t_x", .call "t_x", .br "b"]⟩, ⟨"b", [.call "t_y", .call "t_x", .br "c"]⟩,
      ⟨"c", [.call "t_x", .call "t_xy", .ret]⟩]⟩, ⟨"g", [⟨"a", [.call "t_y", .call "t_", .ret]⟩]⟩]⟩
    p.verify = .ok () ∧
      (∃ g, (build "t_" p).value = .ok g ∧ g.labels.bindings = [("x", 2), ("y", 3), ("xy", 2)] ∧
        g.labels.contains "" = false ∧
        (build "t_" p).events.filter (·.level = .warn) = [.rebound "x" ⟨"f", "a"⟩ ⟨"f", "b"⟩,
          .rebound "x" ⟨"f", "b"⟩ ⟨"f", "c"⟩, .rebound "y" ⟨"f", "b"⟩ ⟨"g", "a"⟩]) ∧
      ((build "t_" (p.split "t_").program).events.filter (·.level = .warn)).length = 4 := by
  intro p
  have hverify : p.verify = .ok () := by decide +kernel
  obtain ⟨g, hg, -, hcontains, -, -, hwarnings⟩ := build_resolves_tracepoints hverify (.inl rfl) "t_"
  obtain ⟨-, -, -, -, -, -, hsplit⟩ := build_resolves_tracepoints hverify (.inr ⟨"t_", rfl⟩) "t_"
  have hbindings : (build "t_" p).value.map (·.labels.bindings) = .ok [("x", 2), ("y", 3), ("xy", 2)] := by
    decide +kernel
  have hmoves : (p.moves "t_").map (Move.event? p) = [.rebound "x" ⟨"f", "a"⟩ ⟨"f", "b"⟩,
      .rebound "x" ⟨"f", "b"⟩ ⟨"f", "c"⟩, .rebound "y" ⟨"f", "b"⟩ ⟨"g", "a"⟩].map some := by decide +kernel
  have hempty : g.labels.contains "" = false := by
    rw [← Bool.not_eq_true, hcontains]
    exact fun h => h.1 rfl
  rw [hg] at hbindings
  rw [hmoves] at hwarnings
  refine ⟨hverify, ⟨g, hg, Except.ok.inj hbindings, hempty, ?_⟩, ?_⟩
  · exact List.map_injective_iff.mpr (Option.some_injective _) hwarnings
  · have hcount : ((p.split "t_").program.moves "t_").length = 4 := by decide +kernel
    simpa [hcount] using congrArg List.length hsplit

end FlowGraph

end Waymark
