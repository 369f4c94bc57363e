import Mathlib.Data.List.Nodup
import Waymark.Proofs.Check
import Waymark.Proofs.Program.SplitRules

/-!
# Labels do not matter

The labels of a function may be renamed, as long as different ones stay different (`Program.relabel`). The new program
is well formed, has the same heads, and from each of them control goes to the same ones
(`Program.heads_relabel`, `Program.WellFormed.onward_relabel`). So the split programs, whose new labels may have nothing
in common, have the same graph and the same tracepoints in it (`Program.build_split_relabel`).
-/

namespace Waymark

/-! ## Renamed labels -/

/-- An instruction that names other labels. -/
def Instruction.relabel (rename : String → String) : Instruction → Instruction
  | br t => .br (rename t)
  | cbr t e => .cbr (rename t) (rename e)
  | switch ts => .switch (ts.map rename)
  | i => i

/-- A block with another label, which names other labels. -/
def Block.relabel (rename : String → String) (b : Block) : Block :=
  ⟨rename b.label, b.body.map (·.relabel rename)⟩

/-- A function with other labels. -/
def Function.relabel (rename : String → String) (f : Function) : Function :=
  { f with blocks := f.blocks.map (·.relabel rename) }

/-- A program with other labels, which are found in each function by a renaming of its own. -/
def Program.relabel (rename : String → String → String) (p : Program) : Program :=
  ⟨p.functions.map fun f => f.relabel (rename f.name)⟩

namespace Instruction

@[simp] theorem tracepoint?_relabel (rename : String → String) (marker : String) (i : Instruction) :
    (i.relabel rename).tracepoint? marker = i.tracepoint? marker := by
  cases i <;> rfl

@[simp] theorem isTracepoint_relabel (rename : String → String) (marker : String) (i : Instruction) :
    (i.relabel rename).isTracepoint marker = i.isTracepoint marker := by
  simp [isTracepoint]

@[simp] theorem isTerminator_relabel (rename : String → String) (i : Instruction) :
    (i.relabel rename).isTerminator = i.isTerminator := by
  cases i <;> rfl

@[simp] theorem targets_relabel (rename : String → String) (i : Instruction) :
    (i.relabel rename).targets = i.targets.map rename := by
  cases i <;> rfl

end Instruction

/-! ## Blocks -/

namespace Block

variable {rename : String → String} {marker : String} {b : Block} {labels : List String}

theorem successors_relabel (rename : String → String) (b : Block) :
    (b.relabel rename).successors = b.successors.map rename := by
  have hterm : (b.relabel rename).terminator? = b.terminator?.map (·.relabel rename) := by
    simp only [terminator?, relabel, List.getLast?_map]
    cases b.body.getLast? with
    | none => rfl
    | some i => cases hi : i.isTerminator <;> simp [Option.filter, hi]
  rw [successors, successors, hterm]
  cases b.terminator? <;> simp

theorem marked_relabel (rename : String → String) (marker : String) (b : Block) (k : Nat) :
    (b.relabel rename).marked marker k = b.marked marker k := by
  simp only [marked, relabel, List.getElem?_map]
  cases b.body[k]? <;> simp

theorem nextCut?_relabel (rename : String → String) (marker : String) (b : Block) (k : Nat) :
    (b.relabel rename).nextCut? marker k = b.nextCut? marker k := by
  simp only [nextCut?, marked_relabel]
  simp [relabel]

theorem WellFormed.relabel (h : b.WellFormed labels) (rename : String → String) :
    (b.relabel rename).WellFormed (labels.map rename) where
  ends := by
    obtain ⟨i, hlast, hi⟩ := h.ends
    exact ⟨i.relabel rename, by simp [Block.relabel, hlast], by simpa using hi⟩
  only := by
    intro j hj
    rw [Block.relabel, ← List.map_dropLast] at hj
    obtain ⟨i, hi, rfl⟩ := List.mem_map.mp hj
    simpa using h.only i hi
  targets := by
    intro t ht
    rw [successors_relabel] at ht
    obtain ⟨s, hs, rfl⟩ := List.mem_map.mp ht
    exact List.mem_map_of_mem (h.targets s hs)

end Block

/-! ## Functions -/

namespace Function

variable {rename : String → String} {f : Function}

theorem labels_relabel (rename : String → String) (f : Function) :
    (f.relabel rename).labels = f.labels.map rename := by
  simp [labels, relabel, Block.relabel]

theorem WellFormed.relabel (h : f.WellFormed)
    (hinj : ∀ l ∈ f.labels, ∀ m ∈ f.labels, rename l = rename m → l = m) : (f.relabel rename).WellFormed where
  nonempty := by
    simpa [Function.relabel] using h.nonempty
  labels := by
    rw [labels_relabel]
    exact List.Nodup.map_on hinj h.labels
  blocks := by
    intro c hc
    obtain ⟨b, hb, rfl⟩ := List.mem_map.mp hc
    rw [labels_relabel]
    exact (h.blocks b hb).relabel rename

end Function

/-- A renaming that tells a word from all others keeps its place. -/
theorem idxOf_map_of_injOn {rename : String → String} {words : List String} {w : String}
    (hinj : ∀ l ∈ words, rename l = rename w → l = w) : (words.map rename).idxOf (rename w) = words.idxOf w := by
  induction words with
  | nil => rfl
  | cons v words ih =>
    rw [List.forall_mem_cons] at hinj
    rw [List.map_cons, List.idxOf_cons, List.idxOf_cons, ih hinj.2]
    by_cases hv : v = w
    · simp [hv]
    · have hne : rename v ≠ rename w := fun heq => hv (hinj.1 heq)
      rw [beq_false_of_ne hv, beq_false_of_ne hne]

/-! ## Programs -/

namespace Program

variable {rename : String → String → String} {marker : String} {p : Program} {q : Position} {f : Function} {b : Block}

theorem At.relabel (h : p.At q f b) (rename : String → String → String) :
    (p.relabel rename).At q (f.relabel (rename f.name)) (b.relabel (rename f.name)) := by
  obtain ⟨hf, hb⟩ := h
  exact ⟨by simp [Program.relabel, hf], by simp [Function.relabel, hb]⟩

theorem positions_relabel (rename : String → String → String) (p : Program) :
    (p.relabel rename).positions = p.positions := by
  simp [positions, relabel, Function.relabel, Block.relabel, List.zipIdx_map, List.flatMap_map]

theorem marked_relabel (rename : String → String → String) (marker : String) (hq : q ∈ p.positions) :
    (p.relabel rename).marked marker q = p.marked marker q := by
  obtain ⟨f, b, hat, -⟩ := mem_positions_iff.mp hq
  rw [(hat.relabel rename).marked, hat.marked, Block.marked_relabel]

/-- The heads stay where they are. -/
theorem heads_relabel (rename : String → String → String) (marker : String) (p : Program) :
    (p.relabel rename).heads marker = p.heads marker := by
  rw [heads, heads, positions_relabel]
  refine List.filter_congr fun q hq => ?_
  exact congrArg (decide (q.index = 0) || ·) (marked_relabel rename marker hq)

theorem tracepoint?_relabel (rename : String → String → String) (marker : String) (hq : q ∈ p.positions) :
    ((p.relabel rename).instruction? q).bind (·.tracepoint? marker) =
      (p.instruction? q).bind (·.tracepoint? marker) := by
  obtain ⟨f, b, hat, -⟩ := mem_positions_iff.mp hq
  rw [(hat.relabel rename).instruction?, hat.instruction?]
  simp [Block.relabel, Option.bind_map]

/-- A renaming tells the labels of every function apart. -/
def KeepsApart (rename : String → String → String) (p : Program) : Prop :=
  ∀ f ∈ p.functions, ∀ l ∈ f.labels, ∀ m ∈ f.labels, rename f.name l = rename f.name m → l = m

instance (rename : String → String → String) (p : Program) : Decidable (KeepsApart rename p) :=
  inferInstanceAs (Decidable (∀ f ∈ p.functions, ∀ l ∈ f.labels, ∀ m ∈ f.labels, _))

theorem WellFormed.relabel (h : p.WellFormed) (hrename : KeepsApart rename p) : (p.relabel rename).WellFormed where
  names := by
    have hnames : (p.relabel rename).functions.map (·.name) = p.functions.map (·.name) := by
      simp [Program.relabel, Function.relabel]
    rw [hnames]
    exact h.names
  functions := by
    intro g hg
    obtain ⟨f, hf, rfl⟩ := List.mem_map.mp hg
    exact (h.functions f hf).relabel (hrename f hf)

/-- From every head control goes to the same ones. -/
theorem WellFormed.onward_relabel (h : p.WellFormed) (hrename : KeepsApart rename p) (hat : p.At q f b) :
    (p.relabel rename).onward marker q = p.onward marker q := by
  rw [(hat.relabel rename).onward, hat.onward, Block.onward, Block.onward, Block.nextCut?_relabel,
    Block.successors_relabel, Function.labels_relabel]
  cases b.nextCut? marker q.index with
  | some k => rfl
  | none =>
    rw [List.map_map]
    refine List.map_congr_left fun t ht => ?_
    have hmem : t ∈ f.labels := (h.block hat).targets t ht
    have hplace := idxOf_map_of_injOn fun l hl => hrename f (List.mem_of_getElem? hat.1) l hl t hmem
    rw [Function.comp, hplace]

/-- **The same sites**: what the blocks of the split program add to the graph does not depend on labels. -/
theorem WellFormed.sites_split_relabel (h : p.WellFormed) (hrename : KeepsApart rename p) :
    ((p.relabel rename).split marker).program.sites marker = (p.split marker).program.sites marker := by
  rw [(h.relabel hrename).sites_split, h.sites_split, heads_relabel]
  refine List.map_congr_left fun q hq => ?_
  obtain ⟨f, b, hat, -⟩ := mem_heads_iff.mp hq
  have hpos := mem_positions_of_mem_heads hq
  have hvertex : (p.relabel rename).vertex marker = p.vertex marker := by
    funext r
    rw [vertex, vertex, heads_relabel]
  rw [site, site, h.onward_relabel hrename hat, tracepoint?_relabel rename marker hpos, hvertex]

theorem blockCount_relabel (rename : String → String → String) (p : Program) :
    (p.relabel rename).blockCount = p.blockCount := by
  simp [blockCount, relabel, Function.relabel, List.flatMap_map]

/-- **Labels do not matter**: with other labels, as long as the labels of each function stay different, a verified
program is verified. Splitting makes as many new blocks as before, and the graph that is built then is the same, with
the same names in the same order for the same vertices. So every query in it has the same answer. -/
theorem build_split_relabel (h : p.verify = .ok ()) (hrename : KeepsApart rename p) (marker : String) :
    (p.relabel rename).verify = .ok () ∧
      ((p.relabel rename).split marker).newBlocks = (p.split marker).newBlocks ∧
      ∃ g g', (FlowGraph.build marker (p.split marker).program).value = .ok g ∧
        (FlowGraph.build marker ((p.relabel rename).split marker).program).value = .ok g' ∧
        g'.graph = g.graph ∧ g'.labels = g.labels ∧
        ∀ start final, ∃ r, g.graph.query g.labels start final = .ok r ∧
          g'.graph.query g'.labels start final = .ok r := by
  have hwf : p.WellFormed := verify_eq_ok_iff.mp h
  have hsites := @WellFormed.sites_split_relabel rename marker p hwf hrename
  obtain ⟨g, hbuild, -⟩ := hwf.build_split marker
  refine ⟨verify_eq_ok_iff.mpr (hwf.relabel hrename), ?_, g, _, hbuild, build_of_sites_eq hsites hbuild, rfl,
    rfl, fun start final => ?_⟩
  · have hblocks : ((p.relabel rename).split marker).program.blockCount = (p.split marker).program.blockCount := by
      rw [← length_sites_eq_blockCount marker, ← length_sites_eq_blockCount marker, hsites]
    have hnew := newBlocks_add_blockCount marker p
    have hnew' := newBlocks_add_blockCount marker (p.relabel rename)
    rw [hblocks, blockCount_relabel] at hnew'
    omega
  · obtain ⟨g', r, hbuild', -, hq⟩ := hwf.exists_query marker start final
    cases Except.ok.inj (hbuild.symm.trans hbuild')
    exact ⟨r, hq, hq⟩

/-- Labels that leave the first numbered one free, and others that do not. -/
theorem build_split_relabel_taken_labels :
    let p : Program := ⟨[⟨"main", [⟨"a", [.op "x", .call "t_a", .cbr "a" "b"]⟩, ⟨"b", [.call "t_b", .ret]⟩]⟩]⟩
    let rename : String → String → String := fun _ l => if l = "a" then "c" else "c.1"
    let split : Program := ⟨[⟨"main", [⟨"a", [.op "x", .br "a.1"]⟩, ⟨"a.1", [.call "t_a", .cbr "a" "b"]⟩,
      ⟨"b", [.call "t_b", .ret]⟩]⟩]⟩
    let split' : Program := ⟨[⟨"main", [⟨"c", [.op "x", .br "c.2"]⟩, ⟨"c.2", [.call "t_a", .cbr "c" "c.1"]⟩,
      ⟨"c.1", [.call "t_b", .ret]⟩]⟩]⟩
    p.verify = .ok () ∧ KeepsApart rename p ∧ (p.split "t_").program = split ∧
      ((p.relabel rename).split "t_").program = split' ∧
      ∃ g g', (FlowGraph.build "t_" split).value = .ok g ∧ (FlowGraph.build "t_" split').value = .ok g' ∧
        g'.graph = g.graph ∧ g'.labels = g.labels := by
  intro p rename split split'
  have hverify : p.verify = .ok () := by decide +kernel
  have hrename : KeepsApart rename p := by decide +kernel
  have hsplit : (p.split "t_").program = split := by decide +kernel
  have hsplit' : ((p.relabel rename).split "t_").program = split' := by decide +kernel
  obtain ⟨-, -, g, g', hbuild, hbuild', hgraph, hlabels, -⟩ := build_split_relabel hverify hrename "t_"
  rw [hsplit] at hbuild
  rw [hsplit'] at hbuild'
  exact ⟨hverify, hrename, hsplit, hsplit', g, g', hbuild, hbuild', hgraph, hlabels⟩

end Program

end Waymark
