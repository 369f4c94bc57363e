import Waymark.Proofs.Check
import Waymark.Proofs.Guarded.FlowGraph
import Waymark.Proofs.Guarded.Search
import Waymark.Proofs.Program.SplitRules

/-!
# Guarded checks

A check of a source in which each stage looks up what it needs and stops with an error where it is not there. Only the
source can be at fault: every other check goes through, with the result of `checkSource` (`checkSource_safe`). Each
stage relies on what an earlier one has established. What is parsed is well formed, splitting keeps it so, the graph of
a well-formed program has a vertex for every label, and the tracepoints in it stand for vertices of the graph.
-/

namespace Waymark

/-- Checks the trace between two tracepoints of a program, every access guarded. -/
def Program.guardedCheck (p : Program) (marker start final : String) : Except Misuse (Logged Checked) := do
  let split ← p.guardedSplit marker
  let built ← FlowGraph.guardedBuild marker split.program
  let result ← built.value.graph.guardedQuery built.value.labels start final
  return ⟨⟨split.program, built.value, result.value⟩, split.events ++ built.events ++ result.events⟩

/-- Checks the trace between two tracepoints of the program that a source denotes, every access guarded. -/
def guardedCheckSource (source marker start final : String) : Except CheckError (Logged Checked) := do
  let p ← (Program.parse source).mapError .source
  (p.guardedCheck marker start final).mapError .misuse

/-- A well-formed program is checked to the end. -/
theorem Program.WellFormed.guardedCheck_eq {p : Program} (h : p.WellFormed) (marker start final : String) :
    ∃ c, p.guardedCheck marker start final = .ok c ∧ p.check marker start final = .ok c ∧
      c.value.program = (p.split marker).program := by
  obtain ⟨g, r, hbuild, -, hquery⟩ := h.exists_query marker start final
  obtain ⟨g', hguarded, hbuild'⟩ := (h.split marker).guardedBuild_eq marker
  obtain rfl : g' = g := Except.ok.inj (hbuild'.symm.trans hbuild)
  refine ⟨_, ?_, check_eq_of_query hbuild hquery, rfl⟩
  simp only [guardedCheck, p.guardedSplit_eq, ok_bind, hguarded, Graph.guardedQuery_eq, hquery]
  rfl

/-- **Checks go through**: for any source, marker and names, the check fails only with the error of the source, and
otherwise has a result for the split program. It is the same with every access guarded: no label, vertex, block, record
or instruction is asked for that is not there. -/
theorem checkSource_safe (source marker start final : String) :
    guardedCheckSource source marker start final = checkSource source marker start final ∧
      ((∃ e, Program.parse source = .error e ∧ checkSource source marker start final = .error (.source e)) ∨
        ∃ p c, Program.parse source = .ok p ∧ checkSource source marker start final = .ok c ∧
          c.value.program = (p.split marker).program) := by
  cases hparse : Program.parse source with
  | error e =>
    have hsource : (Program.parse source).mapError CheckError.source = .error (.source e) := by
      rw [hparse]
      rfl
    rw [guardedCheckSource, checkSource, hsource]
    exact ⟨rfl, .inl ⟨e, rfl, rfl⟩⟩
  | ok p =>
    obtain ⟨c, hguarded, hcheck, hprogram⟩ := (Program.parse_eq_ok_iff.mp hparse).2.guardedCheck_eq marker start final
    have hsource : (Program.parse source).mapError CheckError.source = .ok p := by
      rw [hparse]
      rfl
    rw [checkSource_eq hparse, hcheck, guardedCheckSource, hsource, ok_bind, hguarded]
    exact ⟨rfl, .inr ⟨p, c, rfl, rfl, hprogram⟩⟩

end Waymark
