import Waymark.Proofs.Search.Exact

/-!
# What the records of a search say

A search leaves a record at every vertex that it met. What the record says about loops is exact
(`Graph.analyze_loops_iff`), whether the loop was closed at the vertex itself or was found before and only comes down to
it from a finished successor. And no record is without a finding (`Graph.avoids_or_loops_of_record?`): from where neither
a dead end nor a loop lies ahead, every walk comes to the final vertex.

A vertex may be finished while one of its successors is still on the active path, and then its record need not tell all
that can be reached from it. Such a vertex has a loop ahead, and where none is noted the record is exact
(`Graph.analyze_exact_of_not_loops`). The start hears of it too: a start that is recorded to reach the final vertex and
not to avoid it has no trap ahead, that is, no vertex without a path to the final one (`Graph.analyze_no_trap`).
-/

namespace Waymark.Graph

variable {g : Graph} {start final v : Vertex} {r : Record}

/-- A vertex from which the final one was not seen to be reached has a dead end or a loop ahead. -/
theorem avoids_or_loops_of_record? (hs : start < g.size) (hf : final < g.size)
    (hv : (g.search start final).record? v = some r) (hr : r.reaches = false) : r.avoids = true ∨ r.loops = true := by
  by_cases hl : r.loops = true
  · exact .inr hl
  · -- without a loop the record is exact, and a walk that cannot arrive has to get stuck
    have hex : Survey.Exact g final v r := exact_of_record? hs hf hv (by simpa using hl)
    have hcut : ¬g.Reach final v final := by rw [← hex.reaches, hr]; simp
    have hends : ¬Endless (g.Arc final) v := not_endless_iff.mpr hex.ends
    exact .inl (hex.avoids.mpr (strands_iff.mpr (stuck_of_not_endless hends hcut)))

/-- **Loops are found exactly**: the record of every vertex that a search met notes a loop if and only if a walk from
that vertex, cut where it comes to the final one, runs into a loop. So the record of the start notes one if and only if
some vertex that was met lies on one. -/
theorem analyze_loops_iff (hs : start < g.size) (hf : final < g.size) :
    ∃ a, g.analyze start final = .ok a ∧
      (∀ v r, a.record? v = some r → (r.loops = true ↔ g.Loops final v)) ∧
      (a.startRecord.loops = true ↔ ∃ v, (a.record? v).isSome = true ∧ g.OnLoop final v) := by
  refine ⟨g.search start final, analyze_eq_ok_iff.mpr ⟨hs, hf, rfl⟩, fun v r hv => loops_iff_of_record? hs hf hv, ?_⟩
  simp only [search_loops_iff hs hf, search_record?_isSome_iff hs hf]
  exact Iff.rfl

/-- A loop at a vertex that is finished when an edge leads to it again, and a loop through the final vertex, which does
not count. -/
theorem analyze_loops_iff_cross_edge :
    let g : Graph := ⟨#[[1, 2, 4], [1], [1, 3], [0], [3]], by decide⟩
    0 < g.size ∧ 3 < g.size ∧ ∃ a, g.analyze 0 3 = .ok a ∧
      (∃ r, a.record? 2 = some r ∧ r.loops = true) ∧ g.Loops 3 2 ∧
      (∃ r, a.record? 4 = some r ∧ r.loops = false) ∧ ¬g.Loops 3 4 ∧
      a.startRecord.loops = true ∧ ∃ v, (a.record? v).isSome = true ∧ g.OnLoop 3 v := by
  intro g
  have hs : 0 < g.size := by decide
  have hf : 3 < g.size := by decide
  obtain ⟨a, ha, hrecord, hstart⟩ := analyze_loops_iff hs hf
  have hfound : (g.analyze 0 3).map (fun a => (a.record? 2, a.record? 4, a.startRecord.loops)) =
      .ok (some ⟨true, true, true, .done⟩, some ⟨true, false, false, .done⟩, true) := by decide +kernel
  rw [ha] at hfound
  obtain ⟨h₂, h₄, hloops⟩ : a.record? 2 = _ ∧ a.record? 4 = _ ∧ a.startRecord.loops = true := by
    simpa using Except.ok.inj hfound
  refine ⟨hs, hf, a, ha, ⟨_, h₂, rfl⟩, (hrecord 2 _ h₂).mp rfl, ⟨_, h₄, rfl⟩, fun hl => ?_, hloops, hstart.mp hloops⟩
  cases (hrecord 4 _ h₄).mpr hl

/-- **Records without a loop are exact**, also where the rest of the graph has loops: the final vertex is recorded as
reached if and only if a path leads there, and as avoidable if and only if a path leads around it to a dead end. Whatever
lies ahead, a record never says that the final vertex is reached when it is not. -/
theorem analyze_exact_of_not_loops (hs : start < g.size) (hf : final < g.size) :
    ∃ a, g.analyze start final = .ok a ∧
      (∀ v r, a.record? v = some r → r.loops = false →
        (r.reaches = true ↔ ∃ path, g.IsPath v final path) ∧
        (r.avoids = true ↔ ∃ w path, g.IsPath v w path ∧ final ∉ path ∧ g.isSink w = true)) ∧
      ∀ v r, a.record? v = some r → r.reaches = true → ∃ path, g.IsPath v final path := by
  refine ⟨g.search start final, analyze_eq_ok_iff.mpr ⟨hs, hf, rfl⟩, fun v r hv hl => ?_, fun v r hv hr => ?_⟩
  · have hex : Survey.Exact g final v r := exact_of_record? hs hf hv hl
    rw [hex.reaches, hex.avoids, reach_final_iff_exists_path, strands_iff_exists_path]
    exact ⟨Iff.rfl, Iff.rfl⟩
  · exact reach_final_iff_exists_path.mp (reach_of_search_reaches hs hf hv hr)

/-- A vertex with two ways on, one to the final vertex and one to a dead end, behind a loop. The other vertex of the loop
is finished too early to be seen to reach the final vertex, and a loop is noted there. -/
theorem analyze_exact_of_not_loops_behind_loop :
    let g : Graph := ⟨#[[1, 2], [0], [3, 4], [], []], by decide⟩
    0 < g.size ∧ 3 < g.size ∧ ∃ a, g.analyze 0 3 = .ok a ∧
      (∃ r, a.record? 2 = some r ∧ r.loops = false) ∧ (∃ path, g.IsPath 2 3 path) ∧
      (∃ w path, g.IsPath 2 w path ∧ 3 ∉ path ∧ g.isSink w = true) ∧
      (∃ r, a.record? 4 = some r ∧ r.loops = false) ∧ (¬∃ path, g.IsPath 4 3 path) ∧
      (∃ r, a.record? 1 = some r ∧ r.loops = true ∧ r.reaches = false) ∧ (∃ path, g.IsPath 1 3 path) ∧
      a.startRecord.reaches = true ∧ ∃ path, g.IsPath 0 3 path := by
  intro g
  have hs : 0 < g.size := by decide
  have hf : 3 < g.size := by decide
  obtain ⟨a, ha, hexact, hreaches⟩ := analyze_exact_of_not_loops hs hf
  have hfound : (g.analyze 0 3).map (fun a => (a.record? 2, a.record? 4, a.record? 1, a.record? 0, a.startRecord)) =
      .ok (some ⟨true, true, false, .done⟩, some ⟨false, true, false, .done⟩, some ⟨false, false, true, .done⟩,
        some ⟨true, true, true, .done⟩, ⟨true, true, true, .done⟩) := by decide +kernel
  rw [ha] at hfound
  obtain ⟨h₂, h₄, h₁, h₀, hstart⟩ : a.record? 2 = _ ∧ a.record? 4 = _ ∧ a.record? 1 = _ ∧ a.record? 0 = _ ∧
      a.startRecord = _ := by
    simpa using Except.ok.inj hfound
  have hon : g.IsPath 1 3 [1, 0, 2, 3] :=
    .cons (by decide) (.cons (by decide) (.cons (by decide) (.single 3)))
  refine ⟨hs, hf, a, ha, ⟨_, h₂, rfl⟩, (hexact 2 _ h₂ rfl).1.mp rfl, (hexact 2 _ h₂ rfl).2.mp rfl, ⟨_, h₄, rfl⟩, ?_,
    ⟨_, h₁, rfl, rfl⟩, ⟨_, hon⟩, by rw [hstart], hreaches 0 _ h₀ rfl⟩
  intro hpath
  cases (hexact 4 _ h₄ rfl).1.mpr hpath

/-- A start that is recorded to reach the final vertex and not to avoid it explores only vertices that lead there. -/
theorem reach_final_of_not_avoids (hs : start < g.size) (hf : final < g.size)
    (hr : (g.search start final).startRecord.reaches = true) (ha : (g.search start final).startRecord.avoids = false)
    (hv : g.Reach final start v) : g.Reach final v final := by
  obtain ⟨r, hrec⟩ := Option.isSome_iff_exists.mp ((search_record?_isSome_iff hs hf v).mpr hv)
  by_cases heq : v = start
  · rw [heq]
    exact (search_reaches_iff hs hf).mp hr
  · -- a vertex that was finished without having been seen to reach the final one would have come down to the start
    have hreaches : r.reaches = true := by
      by_contra hnot
      have := (search_avoids_iff hs hf).mpr (.inr ⟨v, r, heq, hrec, by simpa using hnot⟩)
      rw [ha] at this; cases this
    exact reach_of_search_reaches hs hf hrec hreaches

/-- **No trap is missed**: if the start is recorded to reach the final vertex and not to avoid it, then a path leads to
the final vertex from every vertex that the search explores, and if a path leads around the final vertex to a dead end,
then the start is recorded to avoid it. -/
theorem analyze_no_trap (hs : start < g.size) (hf : final < g.size) :
    ∃ a, g.analyze start final = .ok a ∧
      (a.startRecord.reaches = true → a.startRecord.avoids = false →
        ∀ v, (∃ path, g.IsPath start v path ∧ final ∉ path.dropLast) → ∃ path, g.IsPath v final path) ∧
      ((∃ w path, g.IsPath start w path ∧ final ∉ path ∧ g.isSink w = true) → a.startRecord.avoids = true) := by
  refine ⟨g.search start final, analyze_eq_ok_iff.mpr ⟨hs, hf, rfl⟩, fun hr ha v hv => ?_, fun hsink => ?_⟩
  · rw [← reach_final_iff_exists_path]
    exact reach_final_of_not_avoids hs hf hr ha (reach_iff_exists_path.mpr hv)
  · exact (search_avoids_iff hs hf).mpr (.inl (strands_iff_exists_path.mpr hsink))

/-- A loop with a way out at its far end, from which every vertex leads to the final one, and the same loop with the way
out at its near end and a dead end beside it. -/
theorem analyze_no_trap_loops :
    let g : Graph := ⟨#[[1], [2], [3, 1], []], by decide⟩
    let g' : Graph := ⟨#[[1], [2, 3], [4, 1], [], []], by decide⟩
    (0 < g.size ∧ 3 < g.size ∧ ∃ a, g.analyze 0 3 = .ok a ∧ a.startRecord = ⟨true, false, true, .done⟩ ∧
      g.IsPath 0 1 [0, 1, 2, 1] ∧ ∃ path, g.IsPath 1 3 path) ∧
      0 < g'.size ∧ 3 < g'.size ∧ g'.IsPath 0 4 [0, 1, 2, 4] ∧ g'.isSink 4 = true ∧
        ∃ a, g'.analyze 0 3 = .ok a ∧ a.startRecord.avoids = true := by
  intro g g'
  refine ⟨?_, ?_⟩
  · have hs : 0 < g.size := by decide
    have hf : 3 < g.size := by decide
    obtain ⟨a, ha, hclear, -⟩ := analyze_no_trap hs hf
    have hfound : (g.analyze 0 3).map (·.startRecord) = .ok ⟨true, false, true, .done⟩ := by decide +kernel
    rw [ha] at hfound
    have hstart : a.startRecord = ⟨true, false, true, .done⟩ := Except.ok.inj hfound
    have hround : g.IsPath 0 1 [0, 1, 2, 1] :=
      .cons (by decide) (.cons (by decide) (.cons (by decide) (.single 1)))
    refine ⟨hs, hf, a, ha, hstart, hround, ?_⟩
    exact hclear (by rw [hstart]) (by rw [hstart]) 1 ⟨_, hround, by decide⟩
  · have hs : 0 < g'.size := by decide
    have hf : 3 < g'.size := by decide
    obtain ⟨a, ha, -, htrap⟩ := analyze_no_trap hs hf
    have haround : g'.IsPath 0 4 [0, 1, 2, 4] :=
      .cons (by decide) (.cons (by decide) (.cons (by decide) (.single 4)))
    have hsink : g'.isSink 4 = true := by decide
    exact ⟨hs, hf, haround, hsink, a, ha, htrap ⟨4, _, haround, by decide, hsink⟩⟩

end Waymark.Graph
