import Waymark.Check
import Waymark.Proofs.FlowGraph
import Waymark.Proofs.Program.Source
import Waymark.Proofs.Query

/-!
# What a check tells about runs

A check of a source answers for the program that the source denotes, and what it says is about the runs of that program
as it stands in the text, before it is split (`checkSource_outcome_iff_runs`). On the way from the graph back to the
text, walks in the graph are walks from head to head (`FlowGraph.Charts.collapse`), and these are runs
(`Program.WellFormed.collapse`).
-/

namespace Waymark

open Relation

/-! ## Runs that end -/

namespace Program

variable {marker : String} {p : Program} {q r goal : Position}

/-- Some run from `q` ends at a `ret` or an `unreachable`, and never comes to `goal`. -/
def Ends (p : Program) (goal q : Position) : Prop :=
  ∃ r, ReflTransGen (p.StepShort goal) q r ∧ r ≠ goal ∧
    (p.instruction? r = some .ret ∨ p.instruction? r = some .unreachable)

/-- Where no switch is empty, control stops at a `ret` or an `unreachable` only. -/
theorem WellFormed.not_step_iff (h : p.WellFormed)
    (hswitch : ∀ f ∈ p.functions, ∀ b ∈ f.blocks, .switch [] ∉ b.body) (hq : q ∈ p.positions) :
    (∀ r, ¬p.Step q r) ↔ p.instruction? q = some .ret ∨ p.instruction? q = some .unreachable := by
  obtain ⟨f, b, hat, hk⟩ := mem_positions_iff.mp hq
  have hi : b.body[q.index]? = some b.body[q.index] := List.getElem?_eq_getElem hk
  have hb := h.block hat
  rw [hat.instruction?, hi]
  simp only [h.step_iff hat, not_or, not_and, not_exists]
  constructor
  · intro hstop
    have hlast : q.index + 1 = b.body.length := by
      by_contra hne
      exact (hstop ⟨q.function, q.block, q.index + 1⟩).1 (by omega) rfl
    have htargets : b.body[q.index].targets = [] := by
      rw [← hb.successors_eq hi hlast, List.eq_nil_iff_forall_not_mem]
      exact fun t ht => (hstop _).2 hlast t ht rfl
    have hterm := (hb.isTerminator_iff hi).mpr hlast
    have hne : b.body[q.index] ≠ .switch [] := fun heq =>
      hswitch f (List.mem_of_getElem? hat.1) b (List.mem_of_getElem? hat.2) (heq ▸ List.getElem_mem hk)
    generalize b.body[q.index] = i at htargets hterm hne
    cases i <;> simp_all [Instruction.targets, Instruction.isTerminator]
  · intro hret r
    have hlast : q.index + 1 = b.body.length := by
      refine (hb.isTerminator_iff hi).mp ?_
      rcases hret with hret | hret <;> rw [Option.some.inj hret] <;> rfl
    have hnone : b.successors = [] := by
      rw [hb.successors_eq hi hlast]
      rcases hret with hret | hret <;> rw [Option.some.inj hret] <;> rfl
    exact ⟨fun hlt => absurd hlast (Nat.ne_of_lt hlt), fun _ t ht => by simp [hnone] at ht⟩

/-- A run that ends is one that gets stuck. -/
theorem WellFormed.ends_iff (h : p.WellFormed)
    (hswitch : ∀ f ∈ p.functions, ∀ b ∈ f.blocks, .switch [] ∉ b.body) (hq : q ∈ p.positions) :
    p.Ends goal q ↔ Stuck (p.StepShort goal) goal q := by
  have hpositions : ∀ {r}, ReflTransGen (p.StepShort goal) q r → r ∈ p.positions := by
    intro r hr
    induction hr with
    | refl => exact hq
    | tail _ hstep ih =>
      obtain ⟨f, b, hat, -⟩ := mem_positions_iff.mp ih
      exact h.mem_positions_of_step hat hstep.2
  refine exists_congr fun r => and_congr_right fun hr => and_congr_right fun hne => ?_
  rw [← h.not_step_iff hswitch (hpositions hr)]
  exact forall_congr' fun s => ⟨fun hs hstep => hs hstep.2, fun hs hstep => hs ⟨hne, hstep⟩⟩

/-- A run that comes to `goal` may be cut where it does. -/
theorem reaches_iff_stepShort : p.Reaches q goal ↔ ReflTransGen (p.StepShort goal) q goal := by
  constructor
  · intro h
    induction h using ReflTransGen.head_induction_on with
    | refl => exact .refl
    | @head a b hstep _ ih =>
      by_cases ha : a = goal
      · rw [ha]
      · exact .head ⟨ha, hstep⟩ ih
  · intro h
    exact ReflTransGen.mono (fun _ _ hstep => hstep.2) _ _ h

/-- The call of a tracepoint is a head. -/
theorem mem_heads_of_lastCall? {name : String} (h : p.lastCall? marker name = some q) : q ∈ p.heads marker := by
  rw [lastCall?_eq_getLast?_heads] at h
  exact (List.mem_filter.mp (List.mem_of_getLast? h)).1

theorem mem_positions_of_mem_heads (h : q ∈ p.heads marker) : q ∈ p.positions := (List.mem_filter.mp h).1

end Program

/-! ## Runs and walks -/

namespace FlowGraph.Charts

variable {marker : String} {p : Program} {g : FlowGraph} {s goal : Position}

/-- Walks in the graph are walks from head to head. -/
theorem collapse (hg : g.Charts marker p) (h : p.WellFormed) (goal : Position) :
    Collapse (p.Leads marker goal) (g.graph.Arc (p.vertex marker goal)) (· ∈ p.heads marker) (p.vertex marker)
      fun _ => 0 where
  ok_step := by
    rintro q r hq ⟨-, hr⟩
    obtain ⟨f, b, hat, -⟩ := Program.mem_heads_iff.mp hq
    exact h.mem_heads_of_onward hat hr
  step := by
    rintro q r hq ⟨hne, hr⟩
    refine .inr ⟨fun heq => hne (Program.vertex_inj hq heq), ?_⟩
    rw [hg.successors q hq]
    exact List.mem_map_of_mem hr
  lift := by
    rintro q y hq ⟨hne, hy⟩
    rw [hg.successors q hq] at hy
    obtain ⟨r, hr, rfl⟩ := List.mem_map.mp hy
    exact ⟨r, .single ⟨fun heq => hne (heq ▸ rfl), hr⟩, rfl⟩

theorem vertex_lt_size (hg : g.Charts marker p) (hs : s ∈ p.heads marker) : p.vertex marker s < g.graph.size := by
  rw [hg.size]
  exact Program.vertex_lt hs

section Runs

variable (hg : g.Charts marker p) (h : p.WellFormed) (hs : s ∈ p.heads marker) (hgoal : goal ∈ p.heads marker)

include hs hgoal

/-- A run that starts at a head does not start behind the goal. -/
theorem ok_of_mem_heads :
    (s ∈ p.positions ∧ (p.headOf marker s = goal → s = goal)) ∧
      ∀ {q}, q ∈ p.positions ∧ (p.headOf marker q = goal → q = goal) →
        p.headOf marker q = p.headOf marker goal → ReflTransGen (p.StepShort goal) q goal := by
  refine ⟨⟨Program.mem_positions_of_mem_heads hs, fun heq => Program.headOf_of_mem_heads hs ▸ heq⟩, ?_⟩
  rintro q ⟨-, hq⟩ heq
  rw [Program.headOf_of_mem_heads hgoal] at heq
  rw [hq heq]

include hg h

theorem reaches_iff :
    p.Reaches s goal ↔ g.graph.Reach (p.vertex marker goal) (p.vertex marker s) (p.vertex marker goal) := by
  obtain ⟨hok, hback⟩ := ok_of_mem_heads hs hgoal
  rw [Program.reaches_iff_stepShort, (h.collapse hgoal).reach_iff hback hok, Program.headOf_of_mem_heads hs,
    Program.headOf_of_mem_heads hgoal]
  refine (hg.collapse h goal).reach_iff (fun hq heq => ?_) hs
  rw [Program.vertex_inj hq heq]

theorem diverges_iff :
    p.Diverges goal s ↔ Endless (g.graph.Arc (p.vertex marker goal)) (p.vertex marker s) := by
  have hruns := (h.collapse hgoal).endless_iff (ok_of_mem_heads hs hgoal).1
  rw [Program.headOf_of_mem_heads hs] at hruns
  exact hruns.trans ((hg.collapse h goal).endless_iff hs)

theorem stuck_iff :
    Stuck (p.StepShort goal) goal s ↔ g.graph.Strands (p.vertex marker goal) (p.vertex marker s) := by
  obtain ⟨hok, hback⟩ := ok_of_mem_heads hs hgoal
  rw [(h.collapse hgoal).stuck_iff hback hok, Program.headOf_of_mem_heads hs, Program.headOf_of_mem_heads hgoal,
    Graph.strands_iff]
  refine (hg.collapse h goal).stuck_iff (fun hq heq => ?_) hs
  rw [Program.vertex_inj hq heq]

end Runs

end FlowGraph.Charts

/-! ## Checks -/

namespace Program

variable {marker start final : String} {p : Program} {ps pf : Position}

/-- A check puts together what splitting, the graph and the query in it give. -/
theorem check_eq_of_query {g : FlowGraph} {r : Logged Outcome}
    (hbuild : (FlowGraph.build marker (p.split marker).program).value = .ok g)
    (hq : g.graph.query g.labels start final = .ok r) :
    p.check marker start final = .ok ⟨⟨(p.split marker).program, g, r.value⟩, (p.split marker).events ++
      (FlowGraph.build marker (p.split marker).program).events ++ r.events⟩ := by
  have hgraph : (FlowGraph.build marker (p.split marker).program).value.mapError CheckError.misuse = .ok g := by
    rw [hbuild]
    rfl
  have hanswer : (g.graph.query g.labels start final).mapError CheckError.misuse = .ok r := by
    rw [hq]
    rfl
  simp only [check, hgraph, hanswer, bind, Except.bind]
  rfl

/-- A check reports what the query in the graph says. -/
theorem check_of_query {g : FlowGraph} {r : Logged Outcome}
    (hbuild : (FlowGraph.build marker (p.split marker).program).value = .ok g)
    (hq : g.graph.query g.labels start final = .ok r) :
    ∃ c : Logged Checked, p.check marker start final = .ok c ∧ c.value.outcome = r.value :=
  ⟨_, check_eq_of_query hbuild hq, rfl⟩

/-- Some tracepoint is never called, or both are. -/
theorem lastCall?_cases (p : Program) (marker start final : String) :
    (p.lastCall? marker start = none ∨ p.lastCall? marker final = none) ∨
      ∃ ps pf, p.lastCall? marker start = some ps ∧ p.lastCall? marker final = some pf := by
  cases hs : p.lastCall? marker start with
  | none => exact .inl (.inl rfl)
  | some ps =>
    cases hf : p.lastCall? marker final with
    | none => exact .inl (.inr rfl)
    | some pf => exact .inr ⟨ps, pf, rfl, rfl⟩

/-- A check for two calls is a search between their vertices. -/
theorem WellFormed.check_of_found (h : p.WellFormed) (hs : p.lastCall? marker start = some ps)
    (hf : p.lastCall? marker final = some pf) :
    ∃ (g : FlowGraph) (c : Logged Checked), g.Charts marker p ∧ p.check marker start final = .ok c ∧
      c.value.outcome = g.graph.outcome (p.vertex marker ps) (p.vertex marker pf) := by
  obtain ⟨g, hbuild, hg⟩ := h.build_split marker
  have hsl : g.labels.get? start = some (p.vertex marker ps) := by rw [hg.labels, hs]; rfl
  have hfl : g.labels.get? final = some (p.vertex marker pf) := by rw [hg.labels, hf]; rfl
  obtain ⟨events, hq⟩ := Graph.query_of_found hsl hfl (hg.vertex_lt_size (mem_heads_of_lastCall? hs))
    (hg.vertex_lt_size (mem_heads_of_lastCall? hf))
  obtain ⟨c, hcheck, houtcome⟩ := check_of_query hbuild hq
  exact ⟨g, c, hg, hcheck, houtcome⟩

/-- A check for a tracepoint that is never called says so, and nothing else. -/
theorem WellFormed.check_of_missing (h : p.WellFormed)
    (hmissing : p.lastCall? marker start = none ∨ p.lastCall? marker final = none) :
    ∃ c : Logged Checked, p.check marker start final = .ok c ∧
      c.value.outcome =
        ⟨(p.lastCall? marker start).isNone, (p.lastCall? marker final).isNone, false, false, false⟩ := by
  obtain ⟨g, hbuild, hg⟩ := h.build_split marker
  have hisNone : ∀ name, (g.labels.get? name).isNone = (p.lastCall? marker name).isNone := fun name => by
    rw [hg.labels, Option.isNone_map]
  obtain ⟨events, hq⟩ := @Graph.query_of_missing g.graph g.labels start final (by simpa [hg.labels] using hmissing)
  rw [hisNone, hisNone] at hq
  exact check_of_query hbuild hq

/-- A well-formed program has a graph, and every query in it an answer. -/
theorem WellFormed.exists_query (h : p.WellFormed) (marker start final : String) :
    ∃ g r, (FlowGraph.build marker (p.split marker).program).value = .ok g ∧ g.Charts marker p ∧
      g.graph.query g.labels start final = .ok r := by
  obtain ⟨g, hbuild, hg⟩ := h.build_split marker
  refine ⟨g, ?_⟩
  rcases lastCall?_cases p marker start final with hmissing | ⟨ps, pf, hs, hf⟩
  · obtain ⟨events, hq⟩ := @Graph.query_of_missing g.graph g.labels start final (by simpa [hg.labels] using hmissing)
    exact ⟨_, hbuild, hg, hq⟩
  · obtain ⟨events, hq⟩ := Graph.query_of_found (by rw [hg.labels, hs]; rfl) (by rw [hg.labels, hf]; rfl)
      (hg.vertex_lt_size (mem_heads_of_lastCall? hs)) (hg.vertex_lt_size (mem_heads_of_lastCall? hf))
    exact ⟨_, hbuild, hg, hq⟩

/-- The flags of a check for two calls are about the runs from one to the other. -/
theorem WellFormed.outcome_of_found (h : p.WellFormed) (hs : p.lastCall? marker start = some ps)
    (hf : p.lastCall? marker final = some pf) :
    ∃ c : Logged Checked, p.check marker start final = .ok c ∧
      c.value.outcome.startNotFound = false ∧ c.value.outcome.finalNotFound = false ∧
      (c.value.outcome.finalUnreachable = true ↔ ¬p.Reaches ps pf) ∧
      (c.value.outcome.loopFound = true ↔ p.Diverges pf ps) ∧
      (Stuck (p.StepShort pf) pf ps → c.value.outcome.finalAvoidable = true) ∧
      (c.value.outcome.loopFound = false → c.value.outcome.finalAvoidable = true → Stuck (p.StepShort pf) pf ps) ∧
      (c.value.outcome.encode = 0 ↔ ¬p.Diverges pf ps ∧ ¬Stuck (p.StepShort pf) pf ps) := by
  obtain ⟨g, c, hg, hcheck, houtcome⟩ := h.check_of_found hs hf
  have hsh := mem_heads_of_lastCall? hs
  have hfh := mem_heads_of_lastCall? hf
  have hsg := hg.vertex_lt_size hsh
  have hfg := hg.vertex_lt_size hfh
  rw [hg.reaches_iff h hsh hfh, hg.diverges_iff h hsh hfh, hg.stuck_iff h hsh hfh]
  refine ⟨c, hcheck, ?_⟩
  rw [houtcome, Graph.outcome_encode_eq_zero_iff hsg hfg, Graph.Arrives, ← Graph.search_loops_iff hsg hfg,
    ← Graph.search_endless_iff hsg hfg, ← Graph.search_reaches_iff hsg hfg]
  refine ⟨rfl, rfl, by simp [Graph.outcome], Iff.rfl, ?_, ?_, Iff.rfl⟩
  · exact fun hstr => (Graph.search_avoids_iff hsg hfg).mpr (.inl hstr)
  · exact fun hl => (Graph.search_exact hsg hfg hl).avoids.mp

end Program

/-- A check of a source is a check of the program that it denotes. -/
theorem checkSource_eq {source marker start final : String} {p : Program} (h : Program.parse source = .ok p) :
    checkSource source marker start final = p.check marker start final := by
  rw [checkSource, h]
  rfl

/-- **The meaning of an outcome**: the check of a source that denotes a program has an outcome. It says which of the two
tracepoints is never called, and nothing else if one is not. Otherwise it speaks of the runs from the last call of the
first: whether none comes to the last call of the second, whether one goes on for ever short of it, and whether one ends
short of it. The last flag is set if so; it may be set besides only where the one for endless runs is. The exit status
is zero exactly if every run comes to the second call. -/
theorem checkSource_outcome_iff_runs {source : String} {p : Program} (h : Program.parse source = .ok p)
    (marker start final : String) :
    ∃ c, checkSource source marker start final = .ok c ∧
      (c.value.outcome.startNotFound = true ↔ p.lastCall? marker start = none) ∧
      (c.value.outcome.finalNotFound = true ↔ p.lastCall? marker final = none) ∧
      (p.lastCall? marker start = none ∨ p.lastCall? marker final = none →
        c.value.outcome.finalUnreachable = false ∧ c.value.outcome.loopFound = false ∧
          c.value.outcome.finalAvoidable = false) ∧
      (∀ ps pf, p.lastCall? marker start = some ps → p.lastCall? marker final = some pf →
        (c.value.outcome.finalUnreachable = true ↔ ¬p.Reaches ps pf) ∧
        (c.value.outcome.loopFound = true ↔ p.Diverges pf ps) ∧
        (p.Ends pf ps → c.value.outcome.finalAvoidable = true) ∧
        (c.value.outcome.loopFound = false → c.value.outcome.finalAvoidable = true → p.Ends pf ps)) ∧
      (c.value.outcome.encode = 0 ↔
        ∃ ps pf, p.lastCall? marker start = some ps ∧ p.lastCall? marker final = some pf ∧
          ¬p.Diverges pf ps ∧ ¬p.Ends pf ps) := by
  have hwf := (Program.parse_eq_ok_iff.mp h).2
  have hswitch := Program.switch_nil_notMem_of_parse h
  rw [checkSource_eq h]
  rcases p.lastCall?_cases marker start final with hmissing | ⟨ps, pf, hs, hf⟩
  · obtain ⟨c, hcheck, houtcome⟩ := hwf.check_of_missing hmissing
    refine ⟨c, hcheck, ?_⟩
    rw [Outcome.encode_eq_zero_iff, houtcome]
    refine ⟨by simp, by simp, fun _ => ⟨rfl, rfl, rfl⟩, ?_, ?_⟩
    · intro ps pf hs hf
      simp [hs, hf] at hmissing
    · rw [iff_comm]
      constructor
      · rintro ⟨ps, pf, hs, hf, -⟩
        simp [hs, hf] at hmissing
      · intro hzero
        simp only [Outcome.mk.injEq, Option.isNone_eq_false_iff] at hzero
        simp [Option.isSome_iff_ne_none.mp hzero.1, Option.isSome_iff_ne_none.mp hzero.2.1] at hmissing
  · obtain ⟨c, hcheck, hsn, hfn, hunreach, hloop, hstuck, hexact, hzero⟩ := hwf.outcome_of_found hs hf
    have hends : p.Ends pf ps ↔ _ :=
      hwf.ends_iff hswitch (Program.mem_positions_of_mem_heads (Program.mem_heads_of_lastCall? hs))
    rw [← hends] at hstuck hexact hzero
    refine ⟨c, hcheck, by simp [hsn, hs], by simp [hfn, hf], by simp [hs, hf], ?_, ?_⟩
    · intro ps' pf' hs' hf'
      cases hs.symm.trans hs'
      cases hf.symm.trans hf'
      exact ⟨hunreach, hloop, hstuck, hexact⟩
    · simp [hzero, hs, hf]

/-- A loop before the final tracepoint: runs may go around for ever, and otherwise come to it. -/
theorem checkSource_outcome_loop :
    let source := "fn main { entry: call t_a br body body: cbr entry, done done: call t_b ret }"
    let p : Program := ⟨[⟨"main", [⟨"entry", [.call "t_a", .br "body"]⟩, ⟨"body", [.cbr "entry" "done"]⟩,
      ⟨"done", [.call "t_b", .ret]⟩]⟩]⟩
    Program.parse source = .ok p ∧ p.Reaches ⟨0, 0, 0⟩ ⟨0, 2, 0⟩ ∧ p.Diverges ⟨0, 2, 0⟩ ⟨0, 0, 0⟩ ∧
      ¬p.Ends ⟨0, 2, 0⟩ ⟨0, 0, 0⟩ ∧ ∃ c, checkSource source "t_" "a" "b" = .ok c ∧ c.value.outcome.encode = 2 := by
  intro source p
  have hparse : Program.parse source = .ok p := by decide +kernel
  obtain ⟨c, hc, -, -, -, hruns, -⟩ := checkSource_outcome_iff_runs hparse "t_" "a" "b"
  have houtcome : c.value.outcome = ⟨false, false, false, true, false⟩ := by
    have : (checkSource source "t_" "a" "b").map (·.value.outcome) = .ok ⟨false, false, false, true, false⟩ := by
      decide +kernel
    rw [hc] at this
    exact Except.ok.inj this
  have hs : p.lastCall? "t_" "a" = some ⟨0, 0, 0⟩ := by decide +kernel
  have hf : p.lastCall? "t_" "b" = some ⟨0, 2, 0⟩ := by decide +kernel
  obtain ⟨hreach, hloop, hends, -⟩ := hruns _ _ hs hf
  rw [houtcome] at hreach hloop hends
  refine ⟨hparse, ?_, hloop.mp rfl, fun h => ?_, c, hc, by rw [houtcome]; rfl⟩
  · by_contra hn
    cases hreach.mpr hn
  · cases hends h

end Waymark
