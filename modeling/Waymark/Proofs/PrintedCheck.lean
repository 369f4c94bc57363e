import Waymark.Proofs.Program.Printing
import Waymark.Proofs.Program.SplitForm

/-!
# Checking a printed program

A check prints the program that it looked at, which is the split one. That text is a source of its own: it denotes the
split program, in which there is nothing left to split. So its check goes over the same program, the same graph and the
same search (`checkSource_render_eq`).
-/

namespace Waymark

variable {source marker start final : String} {c : Logged Checked}

/-- Only a source that denotes a program has an outcome. -/
theorem exists_parse_of_checkSource (h : checkSource source marker start final = .ok c) :
    ∃ p, Program.parse source = .ok p ∧ p.check marker start final = .ok c := by
  cases hparse : Program.parse source with
  | error e =>
    rw [checkSource, hparse] at h
    cases h
  | ok p => exact ⟨p, rfl, checkSource_eq hparse ▸ h⟩

/-- A program that is split already is checked as it stands. -/
theorem Program.IsSplit.check_eq {p : Program} {g : FlowGraph} {r : Logged Outcome} (h : p.IsSplit marker)
    (hbuild : (FlowGraph.build marker p).value = .ok g) (hquery : g.graph.query g.labels start final = .ok r) :
    ∃ events, p.check marker start final = .ok ⟨⟨p, g, r.value⟩, events⟩ := by
  have hsplit : (p.split marker).program = p := by rw [h.split_eq]
  have hcheck := @check_eq_of_query marker start final p g r (by rw [hsplit]; exact hbuild) hquery
  rw [hsplit] at hcheck
  exact ⟨_, hcheck⟩

/-- **Checking a printed program**: where the check of a source has an outcome, the text of the program that it split is
a source too, and the check of that one comes to the same program, the same graph with the same names of vertices and
of blocks, and the same outcome. -/
theorem checkSource_render_eq (h : checkSource source marker start final = .ok c) :
    ∃ c', checkSource c.value.program.render marker start final = .ok c' ∧ c'.value = c.value := by
  obtain ⟨p, hparse, hcheck⟩ := exists_parse_of_checkSource h
  have hp : p.Printable := Program.printable_of_parse hparse
  obtain ⟨g, r, hbuild, -, hquery⟩ := (Program.verify_eq_ok_iff.mp hp.verified).exists_query marker start final
  have hc : c.value = ⟨(p.split marker).program, g, r.value⟩ := by
    rw [Program.check_eq_of_query hbuild hquery] at hcheck
    cases hcheck
    rfl
  obtain ⟨events, hagain⟩ := (p.isSplit_split marker).check_eq hbuild hquery
  have hback : Program.parse (p.split marker).program.render = .ok (p.split marker).program :=
    (hp.split marker).parse_render
  rw [hc, checkSource_eq hback]
  exact ⟨_, hagain, rfl⟩

/-- A loop through blocks that are cut, a label taken that a new block would have got, and a tracepoint that is called in
two blocks. -/
theorem checkSource_render_eq_taken_label :
    let source := "fn main { a: op x call t_s cbr a.1, b b: op y call t_s br a a.1: op z call t_f ret }"
    let split : Program := ⟨[⟨"main", [⟨"a", [.op "x", .br "a.2"]⟩, ⟨"a.2", [.call "t_s", .cbr "a.1" "b"]⟩,
      ⟨"b", [.op "y", .br "b.1"]⟩, ⟨"b.1", [.call "t_s", .br "a"]⟩, ⟨"a.1", [.op "z", .br "a.1.1"]⟩,
      ⟨"a.1.1", [.call "t_f", .ret]⟩]⟩]⟩
    ∃ c, checkSource source "t_" "s" "f" = .ok c ∧ c.value.program = split ∧ c.value.outcome.encode = 3 ∧
      ∃ c', checkSource split.render "t_" "s" "f" = .ok c' ∧ c'.value = c.value := by
  intro source split
  have hvalue : (checkSource source "t_" "s" "f").map (fun c => (c.value.program, c.value.outcome.encode)) =
      .ok (split, 3) := by decide +kernel
  obtain ⟨c, hcheck, hc⟩ := exists_of_map_eq_ok hvalue
  obtain ⟨hprogram, hencode⟩ := Prod.mk.inj hc
  obtain ⟨c', hagain, hsame⟩ := checkSource_render_eq hcheck
  rw [hprogram] at hagain
  exact ⟨c, hcheck, hprogram, hencode, c', hagain, hsame⟩

end Waymark
