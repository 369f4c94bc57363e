import Waymark.Proofs.Check
import Waymark.Proofs.Program.Landing
import Waymark.Proofs.Search.Subdivision

/-!
# What opaque work changes

One more `op` in a program changes nothing about its tracepoints, and nearly nothing about the outcome of a check
(`Program.check_insertOp_outcome`). The graph of the new program holds a picture of the old one
(`FlowGraph.Charts.subdivides`), with a door before the block that the `op` was put at the start of. The door is noticed
only if the call behind it is where the search starts and a run comes back to it: such runs are found to avoid the final
call.
-/

namespace Waymark

open Relation

/-! ## Pictures -/

/-- Some run from `q` comes back to `q` before it comes to `goal`. -/
def Program.Returns (p : Program) (goal q : Position) : Prop := TransGen (p.StepShort goal) q q

namespace FlowGraph.Charts

variable {marker name : String} {p : Program} {g g' : FlowGraph} {q ps pf : Position}

/-- **The picture** of the graph of a program in that of the program with one more instruction. -/
theorem subdivides (hg : g.Charts marker p) (hg' : g'.Charts marker (p.insertOp q name)) (h : p.WellFormed)
    (hq : q ∈ p.positions) (hs : ps ∈ p.heads marker) (hf : pf ∈ p.heads marker) :
    g.graph.Subdivides g'.graph (p.vertex marker ps) (p.vertex marker pf)
      (fun v => (p.insertOp q name).vertex marker (p.landing marker q (p.headAt marker v)))
      (fun v => (p.insertOp q name).vertex marker (q.entry (p.headAt marker v))) := by
  have hmet : ∀ {v}, g.graph.Met (p.vertex marker ps) (p.vertex marker pf) v →
      ∃ r ∈ p.heads marker, p.vertex marker r = v := by
    intro v hv
    refine Program.exists_vertex_eq (hg.size ▸ ?_)
    rcases hv with hv | rfl
    · exact Graph.lt_size_of_reach (hg.vertex_lt_size hs) hv
    · exact hg.vertex_lt_size hf
  refine ⟨fun {v} hv => ?_, fun {v w} hv hw heq => ?_, fun {v} hv _ => ?_, fun {w} hw hne => ?_⟩
  · obtain ⟨r, hr, rfl⟩ := hmet hv
    rw [Program.headAt_vertex hr]
    exact hg'.vertex_lt_size (Program.landing_mem_heads hq hr name)
  · obtain ⟨r, hr, rfl⟩ := hmet hv
    obtain ⟨u, hu, rfl⟩ := hmet hw
    simp only [Program.headAt_vertex hr, Program.headAt_vertex hu] at heq
    rw [Program.landing_injOn hr hu (Program.vertex_inj (Program.landing_mem_heads hq hr name) heq)]
  · obtain ⟨r, hr, rfl⟩ := hmet (.inl hv)
    rw [Program.headAt_vertex hr, hg'.successors _ (Program.landing_mem_heads hq hr name),
      Program.onward_landing hq hr, hg.successors r hr, List.map_map, List.map_map]
    refine List.map_congr_left fun u hu => ?_
    obtain ⟨f, b, hat, -⟩ := Program.mem_heads_iff.mp hr
    simp only [Function.comp, Program.headAt_vertex (h.mem_heads_of_onward hat hu)]
  · obtain ⟨r, hr, rfl⟩ := hmet hw
    simp only [Program.headAt_vertex hr] at hne ⊢
    have hentry : q.entry r ≠ p.landing marker q r := fun heq => hne (by rw [heq])
    have hmem := Program.entry_mem_heads hq hr name
    refine ⟨?_, fun {v} hv heq => ?_, fun {v} hv heq => ?_⟩
    · rw [hg'.successors _ hmem, Program.onward_entry hr hentry]
      rfl
    · exact (Program.entry_unique hr hentry).1 (Program.vertex_inj hmem heq.symm).symm
    · obtain ⟨u, hu, rfl⟩ := hmet hv
      rw [Program.headAt_vertex hu] at heq
      rw [(Program.entry_unique hr hentry).2 (Program.vertex_inj hmem heq.symm).symm]

/-- Walks back to a vertex are runs back to its head. -/
theorem onLoop_iff (hg : g.Charts marker p) (h : p.WellFormed) (hs : ps ∈ p.heads marker) (hf : pf ∈ p.heads marker) :
    g.graph.OnLoop (p.vertex marker pf) (p.vertex marker ps) ↔ p.Returns pf ps := by
  constructor
  · intro hloop
    have hsteps : ∀ {r y}, r ∈ p.heads marker → g.graph.Arc (p.vertex marker pf) (p.vertex marker r) y →
        ∃ u ∈ p.heads marker, p.vertex marker u = y ∧ TransGen (p.StepShort pf) r u := by
      rintro r y hr ⟨hne, hy⟩
      rw [hg.successors r hr] at hy
      obtain ⟨u, hu, rfl⟩ := List.mem_map.mp hy
      obtain ⟨f, b, hat, hk, -⟩ := Program.mem_heads_iff.mp hr
      refine ⟨u, h.mem_heads_of_onward hat hu, rfl, h.steps_of_onward hat hk hu hf ?_⟩
      rw [Program.headOf_of_mem_heads hr]
      exact fun heq => hne (heq ▸ rfl)
    have hwalk : ∀ {y}, TransGen (g.graph.Arc (p.vertex marker pf)) (p.vertex marker ps) y →
        ∃ u ∈ p.heads marker, p.vertex marker u = y ∧ TransGen (p.StepShort pf) ps u := by
      intro y hy
      induction hy with
      | single ha => exact hsteps hs ha
      | tail _ ha ih =>
        obtain ⟨r, hr, rfl, hrun⟩ := ih
        obtain ⟨u, hu, heq, hsteps⟩ := hsteps hr ha
        exact ⟨u, hu, heq, hrun.trans hsteps⟩
    obtain ⟨u, hu, heq, hrun⟩ := hwalk hloop
    rwa [Program.vertex_inj hu heq] at hrun
  · intro hrun
    have hleads := (h.collapse hf).transGen_self (ok_of_mem_heads hs hf).1 hrun
    rw [Program.headOf_of_mem_heads hs] at hleads
    exact (hg.collapse h pf).transGen_self hs hleads

end FlowGraph.Charts

/-! ## Outcomes -/

namespace Program

variable {marker start final : String} {p : Program} {q ps pf : Position}

theorem marked_of_lastCall? {name : String} (h : p.lastCall? marker name = some q) : p.marked marker q = true := by
  obtain ⟨i, hi, ht⟩ := Option.bind_eq_some_iff.mp (calls_of_lastCall? h)
  simp [marked, hi, Instruction.isTracepoint, ht]

/-- The last calls are moved with their instructions, and the one is entered elsewhere if it stands at the start of a
block and behind the new instruction. -/
theorem landing_of_lastCall? {name : String} (h : p.lastCall? marker name = some ps) :
    p.landing marker q ps = q.shift ps ∧ (q.entry ps ≠ p.landing marker q ps ↔ ps = q ∧ q.index = 0) := by
  have hmarked := marked_of_lastCall? h
  refine ⟨if_pos hmarked, ?_⟩
  rw [entry_ne_landing_iff (mem_heads_of_lastCall? h)]
  constructor
  · rintro ⟨heq, h0, -⟩
    exact ⟨heq, h0⟩
  · rintro ⟨rfl, h0⟩
    exact ⟨rfl, h0, hmarked⟩

/-- With both tracepoints called, the outcomes agree but for runs that come back to the start through the new
instruction. -/
theorem WellFormed.check_insertOp_of_found (h : p.WellFormed) (hq : q ∈ p.positions) (name : String)
    (hs : p.lastCall? marker start = some ps) (hf : p.lastCall? marker final = some pf) :
    ∃ c c' : Logged Checked, p.check marker start final = .ok c ∧
      (p.insertOp q name).check marker start final = .ok c' ∧
      (¬(ps = q ∧ q.index = 0 ∧ p.Returns pf q) → c'.value.outcome = c.value.outcome) ∧
      (ps = q ∧ q.index = 0 ∧ p.Returns pf q →
        c'.value.outcome = { c.value.outcome with finalAvoidable := true }) := by
  have hs' : (p.insertOp q name).lastCall? marker start = some (q.shift ps) := by rw [lastCall?_insertOp hq, hs]; rfl
  have hf' : (p.insertOp q name).lastCall? marker final = some (q.shift pf) := by rw [lastCall?_insertOp hq, hf]; rfl
  obtain ⟨g, c, hg, hcheck, houtcome⟩ := h.check_of_found hs hf
  obtain ⟨g', c', hg', hcheck', houtcome'⟩ := (h.insertOp hq name).check_of_found hs' hf'
  have hsh := mem_heads_of_lastCall? hs
  have hfh := mem_heads_of_lastCall? hf
  obtain ⟨hreaches, hloops, havoids⟩ := (hg.subdivides hg' h hq hsh hfh).startRecord_flags (hg.vertex_lt_size hsh)
    (hg.vertex_lt_size hfh)
  obtain ⟨hlands, hentry⟩ := @landing_of_lastCall? marker p q ps start hs
  have hlandf := (@landing_of_lastCall? marker p q pf final hf).1
  have hdoor : (p.insertOp q name).vertex marker (q.entry ps) ≠ (p.insertOp q name).vertex marker (q.shift ps) ↔
      ps = q ∧ q.index = 0 := by
    rw [← hentry, hlands]
    exact not_congr ⟨vertex_inj (entry_mem_heads hq hsh name), congrArg _⟩
  simp only [headAt_vertex hsh, headAt_vertex hfh, hlands, hlandf] at hreaches hloops havoids
  rw [hdoor, hg.onLoop_iff h hsh hfh] at havoids
  refine ⟨c, c', hcheck, hcheck', fun hnot => ?_, fun hret => ?_⟩
  · have hsame : ¬((ps = q ∧ q.index = 0) ∧ p.Returns pf ps) := by
      rintro ⟨⟨rfl, h0⟩, hret⟩
      exact hnot ⟨rfl, h0, hret⟩
    rw [or_iff_left hsame, ← Bool.eq_iff_iff] at havoids
    rw [houtcome, houtcome', Graph.outcome, Graph.outcome, hreaches, hloops, havoids]
  · obtain ⟨rfl, h0, hret⟩ := hret
    rw [houtcome, houtcome', Graph.outcome, Graph.outcome, hreaches, hloops, havoids.mpr (.inr ⟨⟨rfl, h0⟩, hret⟩)]

/-- **Opaque work** hardly matters: with one more `op`, put at or before the terminator of a block, a check has the same
outcome. The exception is an `op` right before the last call of the first tracepoint where that call starts its block
and some run comes back to it before it comes to the last call of the second. Then the new outcome says besides that the
second may be avoided. -/
theorem check_insertOp_outcome {source : String} (h : Program.parse source = .ok p) (hq : q ∈ p.positions)
    (name marker start final : String) :
    ∃ c c' : Logged Checked, p.check marker start final = .ok c ∧
      (p.insertOp q name).check marker start final = .ok c' ∧
      (¬(q.index = 0 ∧ p.lastCall? marker start = some q ∧
          ∃ pf, p.lastCall? marker final = some pf ∧ p.Returns pf q) → c'.value.outcome = c.value.outcome) ∧
      (q.index = 0 ∧ p.lastCall? marker start = some q ∧ (∃ pf, p.lastCall? marker final = some pf ∧ p.Returns pf q) →
        c'.value.outcome = { c.value.outcome with finalAvoidable := true }) := by
  have hwf := (Program.parse_eq_ok_iff.mp h).2
  rcases p.lastCall?_cases marker start final with hmissing | ⟨ps, pf, hs, hf⟩
  · obtain ⟨c, hcheck, houtcome⟩ := hwf.check_of_missing hmissing
    have hmissing' : (p.insertOp q name).lastCall? marker start = none ∨
        (p.insertOp q name).lastCall? marker final = none := by
      simpa [lastCall?_insertOp hq] using hmissing
    obtain ⟨c', hcheck', houtcome'⟩ := (hwf.insertOp hq name).check_of_missing hmissing'
    refine ⟨c, c', hcheck, hcheck', fun _ => ?_, ?_⟩
    · rw [houtcome, houtcome', lastCall?_insertOp hq, lastCall?_insertOp hq, Option.isNone_map, Option.isNone_map]
    · rintro ⟨-, hs, pf, hf, -⟩
      simp [hs, hf] at hmissing
  · obtain ⟨c, c', hcheck, hcheck', hsame, hmore⟩ := hwf.check_insertOp_of_found hq name hs hf
    refine ⟨c, c', hcheck, hcheck', fun hnot => hsame ?_, ?_⟩
    · rintro ⟨rfl, h0, hret⟩
      exact hnot ⟨h0, hs, pf, hf, hret⟩
    · rintro ⟨h0, hs', pf', hf', hret⟩
      cases hs.symm.trans hs'
      cases hf.symm.trans hf'
      exact hmore ⟨rfl, h0, hret⟩

/-- In a loop through the start: an `op` before the final call is not noticed, one before the start call is. -/
theorem check_insertOp_outcome_loop :
    let source := "fn main { entry: call t_a br body body: cbr entry, done done: call t_b ret }"
    let p : Program := ⟨[⟨"main", [⟨"entry", [.call "t_a", .br "body"]⟩, ⟨"body", [.cbr "entry" "done"]⟩,
      ⟨"done", [.call "t_b", .ret]⟩]⟩]⟩
    Program.parse source = .ok p ∧ ⟨0, 2, 0⟩ ∈ p.positions ∧ ⟨0, 0, 0⟩ ∈ p.positions ∧
      (∃ c c', p.check "t_" "a" "b" = .ok c ∧ (p.insertOp ⟨0, 2, 0⟩ "work").check "t_" "a" "b" = .ok c' ∧
        c'.value.outcome = c.value.outcome) ∧
      p.Returns ⟨0, 2, 0⟩ ⟨0, 0, 0⟩ ∧
      ∃ c c', p.check "t_" "a" "b" = .ok c ∧ (p.insertOp ⟨0, 0, 0⟩ "work").check "t_" "a" "b" = .ok c' ∧
        c'.value.outcome = { c.value.outcome with finalAvoidable := true } := by
  intro source p
  have hparse : Program.parse source = .ok p := by decide +kernel
  have hfinal : ⟨0, 2, 0⟩ ∈ p.positions := by decide +kernel
  have hstart : ⟨0, 0, 0⟩ ∈ p.positions := by decide +kernel
  have hs : p.lastCall? "t_" "a" = some ⟨0, 0, 0⟩ := by decide +kernel
  have hf : p.lastCall? "t_" "b" = some ⟨0, 2, 0⟩ := by decide +kernel
  have hret : p.Returns ⟨0, 2, 0⟩ ⟨0, 0, 0⟩ := by
    have hcall : p.StepShort ⟨0, 2, 0⟩ ⟨0, 0, 0⟩ ⟨0, 0, 1⟩ := ⟨by decide, .next rfl rfl⟩
    have hbr : p.StepShort ⟨0, 2, 0⟩ ⟨0, 0, 1⟩ ⟨0, 1, 0⟩ := ⟨by decide, .jump rfl rfl rfl List.mem_cons_self⟩
    have hcbr : p.StepShort ⟨0, 2, 0⟩ ⟨0, 1, 0⟩ ⟨0, 0, 0⟩ := ⟨by decide, .jump rfl rfl rfl List.mem_cons_self⟩
    exact .tail (.tail (.single hcall) hbr) hcbr
  obtain ⟨c, c', hc, hc', hsame, -⟩ := check_insertOp_outcome hparse hfinal "work" "t_" "a" "b"
  obtain ⟨d, d', hd, hd', -, hmore⟩ := check_insertOp_outcome hparse hstart "work" "t_" "a" "b"
  refine ⟨hparse, hfinal, hstart, ⟨c, c', hc, hc', hsame ?_⟩, hret, d, d', hd, hd', hmore ⟨rfl, hs, _, hf, hret⟩⟩
  rintro ⟨-, hne, -⟩
  rw [hs] at hne
  cases hne

/-- An `op` before the call that a loop comes back to changes the outcome. -/
theorem outcome_depends_on_opaque_work :
    let source := "fn main { entry: call t_a br body body: cbr entry, done done: call t_b ret }"
    let p : Program := ⟨[⟨"main", [⟨"entry", [.call "t_a", .br "body"]⟩, ⟨"body", [.cbr "entry" "done"]⟩,
      ⟨"done", [.call "t_b", .ret]⟩]⟩]⟩
    Program.parse source = .ok p ∧ ⟨0, 0, 0⟩ ∈ p.positions ∧
      (p.check "t_" "a" "b").map (·.value.outcome) = .ok ⟨false, false, false, true, false⟩ ∧
      ((p.insertOp ⟨0, 0, 0⟩ "work").check "t_" "a" "b").map (·.value.outcome) =
        .ok ⟨false, false, false, true, true⟩ := by
  decide +kernel

end Program

end Waymark
