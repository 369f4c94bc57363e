import Waymark.Proofs.Program.SplitForm
import Waymark.Proofs.Tracepoints

/-!
# Tracepoints at the heads of blocks

In a split program a tracepoint call is the first instruction of its block (`Block.IsSplit.index_eq_zero`). So the block
that a name stands for starts with a call of that name (`FlowGraph.exists_leading_of_mem_bindings`), and as a block
starts with one instruction only, no two names stand for the same block (`Program.split_leads`). Before a program is
split, two names may well share a block.
-/

namespace Waymark

/-- No name stands twice in a table, so what is listed for it is what it stands for. -/
theorem Labels.get?_of_mem {l : Labels} {name : String} {v : Vertex} (h : (name, v) ∈ l.bindings) :
    l.get? name = some v := by
  obtain ⟨bindings, hnodup⟩ := l
  rw [get?]
  induction bindings with
  | nil => cases h
  | cons b bindings ih =>
    rw [List.map_cons, List.nodup_cons] at hnodup
    rw [lookup_cons]
    rcases List.mem_cons.mp h with rfl | h
    · rw [if_pos rfl]
    · have hne : name ≠ b.1 := fun heq => hnodup.1 (heq ▸ List.mem_map_of_mem h)
      rw [if_neg hne]
      exact ih hnodup.2 h

variable {marker name : String} {p : Program} {q : Position} {g : FlowGraph} {v : Vertex}

theorem Block.IsSplit.index_eq_zero {b : Block} {k : Nat} {i : Instruction} (h : b.IsSplit marker)
    (hi : b.body[k]? = some i) (hmarked : i.isTracepoint marker = true) : k = 0 := by
  cases k with
  | zero => rfl
  | succ k =>
    rw [← List.getElem?_tail] at hi
    rw [h i (List.mem_of_getElem? hi)] at hmarked
    cases hmarked

/-- A call in a split program heads its block. -/
theorem Program.IsSplit.exists_leading (h : p.IsSplit marker) (hq : p.Calls marker name q) :
    ∃ f b, p.At q f b ∧ b.leadingTracepoint? marker = some name := by
  obtain ⟨i, hi, hname⟩ := Option.bind_eq_some_iff.mp hq
  obtain ⟨f, b, hat, hbody⟩ := instruction?_eq_some_iff.mp hi
  have hsplit := h f (List.mem_of_getElem? hat.1) b (List.mem_of_getElem? hat.2)
  have hzero : q.index = 0 := hsplit.index_eq_zero hbody (by rw [Instruction.isTracepoint, hname]; rfl)
  refine ⟨f, b, hat, ?_⟩
  rw [Block.leadingTracepoint?, List.head?_eq_getElem?, ← hzero, hbody]
  exact hname

namespace FlowGraph

open Program

/-- **The block of a name starts with a call of it**, if the program is split. -/
theorem exists_leading_of_mem_bindings (h : p.WellFormed) (hsplit : p.IsSplit marker)
    (hg : (build marker p).value = .ok g) (hv : (name, v) ∈ g.labels.bindings) :
    ∃ q f b, p.At q f b ∧ p.blockVertex q = v ∧ g.blocks[v]? = some ⟨f.name, b.label⟩ ∧
      b.leadingTracepoint? marker = some name := by
  obtain ⟨g₁, hg₁, hlabels, -⟩ := build_labels h marker
  obtain ⟨g₂, hg₂, hdepicts⟩ := depicts_of_targetsFound (fun f hf => (h.functions f hf).targetsFound) marker
  cases hg.symm.trans hg₁
  cases hg.symm.trans hg₂
  have hget := Labels.get?_of_mem hv
  rw [hlabels, get?_insertAll_callsAt, Option.map_eq_some_iff] at hget
  obtain ⟨q, hlast, rfl⟩ := hget
  obtain ⟨f, b, hat, hleading⟩ := hsplit.exists_leading (calls_of_lastCall? hlast)
  exact ⟨q, f, b, hat, rfl, hdepicts.name hat, hleading⟩

end FlowGraph

/-- **After splitting, tracepoints head their blocks**, in any program and for any marker: no tracepoint call stands
behind another instruction, so that to split again makes no new block and changes nothing. If the program is verified,
the block of each vertex that a name stands for starts with a call of that name, and different names stand for different
vertices. -/
theorem Program.split_leads (marker : String) (p : Program) :
    let p' := (p.split marker).program
    (∀ f ∈ p'.functions, ∀ b ∈ f.blocks, ∀ k i, b.body[k]? = some i → i.isTracepoint marker = true → k = 0) ∧
      (p'.split marker).newBlocks = 0 ∧ (p'.split marker).program = p' ∧
      (p.verify = .ok () → ∃ g, (FlowGraph.build marker p').value = .ok g ∧
        (∀ t v, (t, v) ∈ g.labels.bindings → ∃ q f b, p'.At q f b ∧ p'.blockVertex q = v ∧
          g.blocks[v]? = some ⟨f.name, b.label⟩ ∧ b.leadingTracepoint? marker = some t) ∧
        ∀ t t' v v', (t, v) ∈ g.labels.bindings → (t', v') ∈ g.labels.bindings → t ≠ t' → v ≠ v') := by
  intro p'
  have hsplit : p'.IsSplit marker := p.isSplit_split marker
  have hagain : p'.split marker = ⟨p', []⟩ := p.split_split marker
  refine ⟨fun f hf b hb k i hi hmarked => (hsplit f hf b hb).index_eq_zero hi hmarked, by rw [hagain]; rfl,
    by rw [hagain], fun hverify => ?_⟩
  have hwf : p'.WellFormed := (verify_eq_ok_iff.mp hverify).split marker
  obtain ⟨g, hg, -⟩ := FlowGraph.build_labels hwf marker
  refine ⟨g, hg, fun t v hv => FlowGraph.exists_leading_of_mem_bindings hwf hsplit hg hv, ?_⟩
  rintro t t' v v' hv hv' hne rfl
  obtain ⟨q, f, b, hat, hq, -, hleading⟩ := FlowGraph.exists_leading_of_mem_bindings hwf hsplit hg hv
  obtain ⟨r, f', b', hat', hr, -, hleading'⟩ := FlowGraph.exists_leading_of_mem_bindings hwf hsplit hg hv'
  -- both names head the one block with this number
  obtain ⟨hfunction, hblock⟩ := (hat.blockVertex_eq_iff hat').mp (hq.trans hr.symm)
  have hsame : p'.At r f b := by
    rw [At, ← hfunction, ← hblock]
    exact hat
  obtain ⟨-, rfl⟩ := hsame.unique hat'
  exact hne (Option.some.inj (hleading.symm.trans hleading'))

/-- Two names share a block until it is split, and one of them is called again in a block that starts with the other. -/
theorem Program.split_leads_shared_block :
    let p : Program := ⟨[⟨"f", [⟨"a", [.call "t_x", .call "t_y", .br "b"]⟩,
      ⟨"b", [.call "t_z", .op "w", .call "t_x", .ret]⟩]⟩]⟩
    let p' := (p.split "t_").program
    p.verify = .ok () ∧
      ((FlowGraph.build "t_" p).value.map (·.labels.bindings)) = .ok [("x", 1), ("y", 0), ("z", 1)] ∧
      ((FlowGraph.build "t_" p').value.map (·.labels.bindings)) = .ok [("x", 3), ("y", 1), ("z", 2)] ∧
      (p'.split "t_").newBlocks = 0 ∧
      ∃ q f b, p'.At q f b ∧ p'.blockVertex q = 3 ∧ b.leadingTracepoint? "t_" = some "x" := by
  intro p p'
  have hverify : p.verify = .ok () := by decide +kernel
  have hbindings : ((FlowGraph.build "t_" p').value.map (·.labels.bindings)) = .ok [("x", 3), ("y", 1), ("z", 2)] := by
    decide +kernel
  obtain ⟨-, hagain, -, hgraph⟩ := p.split_leads "t_"
  obtain ⟨g, hg, hleads, -⟩ := hgraph hverify
  refine ⟨hverify, by decide +kernel, hbindings, hagain, ?_⟩
  rw [hg] at hbindings
  have hlist : g.labels.bindings = [("x", 3), ("y", 1), ("z", 2)] := Except.ok.inj hbindings
  have hx : ("x", 3) ∈ g.labels.bindings := by simp [hlist]
  obtain ⟨q, f, b, hat, hq, -, hleading⟩ := hleads "x" 3 hx
  exact ⟨q, f, b, hat, hq, hleading⟩

end Waymark
