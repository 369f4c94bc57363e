import Waymark.Proofs.Query

/-!
# The order of successors

Two graphs with the same edges have the same walks, so whatever a search says about walks does not depend on the order
in which a vertex lists its successors: whether the final vertex is reached and whether a loop is met. The third flag
of the start is another matter. A vertex that is finished while its way to the final vertex leads through the active
path has not been seen to get there (`Overlooks`), and the order decides which vertices that happens to
(`search_avoids_depends_on_order`). The flags agree exactly where that makes no difference
(`Graph.startRecord_flags_of_sameEdges`).
-/

namespace Waymark.Graph

open Relation

/-! ## The same walks -/

/-- The same vertices and edges, where each vertex lists its successors in an order of its own. -/
def SameEdges (g g' : Graph) : Prop := g.size = g'.size ∧ ∀ v, (g.successors v).Perm (g'.successors v)

variable {g g' : Graph} {s f v w : Vertex}

/-- Only vertices of the graph have successors to compare. -/
theorem sameEdges_of_lt (hsize : g.size = g'.size) (h : ∀ v < g.size, (g.successors v).Perm (g'.successors v)) :
    SameEdges g g' := by
  refine ⟨hsize, fun v => ?_⟩
  by_cases hv : v < g.size
  · exact h v hv
  · rw [successors_of_size_le (Nat.not_lt.mp hv), successors_of_size_le (hsize ▸ Nat.not_lt.mp hv)]

theorem SameEdges.arc_eq (h : SameEdges g g') (f : Vertex) : g.Arc f = g'.Arc f := by
  funext v w
  simp only [Arc, (h.2 v).mem_iff]

theorem SameEdges.reach_iff (h : SameEdges g g') : g.Reach f v w ↔ g'.Reach f v w := by
  unfold Reach
  rw [h.arc_eq]

theorem SameEdges.loops_iff (h : SameEdges g g') : g.Loops f v ↔ g'.Loops f v := by
  unfold Loops OnLoop Reach
  rw [h.arc_eq]

theorem SameEdges.strands_iff (h : SameEdges g g') : g.Strands f v ↔ g'.Strands f v := by
  rw [Graph.strands_iff, Graph.strands_iff, h.arc_eq]

/-! ## What a search overlooks -/

/-- Some vertex other than the start was finished before it was seen to reach the final one. -/
def Overlooks (g : Graph) (s f : Vertex) : Prop :=
  ∃ v r, v ≠ s ∧ (g.search s f).record? v = some r ∧ r.reaches = false

/-- A search that meets a vertex with no way to the final one cannot see one. -/
theorem overlooks_of_cut_off (hs : s < g.size) (hf : f < g.size) (hv : g.Reach f s v) (hne : v ≠ s)
    (hcut : ¬g.Reach f v f) : g.Overlooks s f := by
  obtain ⟨r, hr⟩ := Option.isSome_iff_exists.mp ((search_record?_isSome_iff hs hf v).mpr hv)
  refine ⟨v, r, hne, hr, ?_⟩
  rw [Bool.eq_false_iff]
  exact fun h => hcut (reach_of_search_reaches hs hf hr h)

theorem avoids_iff_overlooks (hs : s < g.size) (hf : f < g.size) :
    (g.search s f).startRecord.avoids = true ↔ g.Strands f s ∨ g.Overlooks s f :=
  search_avoids_iff hs hf

/-- Without a loop the third flag is about dead ends alone. -/
theorem avoids_iff_strands (hs : s < g.size) (hf : f < g.size) (hl : ¬g.Loops f s) :
    (g.search s f).startRecord.avoids = true ↔ g.Strands f s := by
  refine (search_exact hs hf ?_).avoids
  rw [Bool.eq_false_iff]
  exact fun h => hl ((search_loops_iff hs hf).mp h)

/-! ## Two orders -/

section TwoOrders

variable (h : SameEdges g g') (hs : s < g.size) (hf : f < g.size)

include h hs hf

theorem SameEdges.reaches_eq :
    (g.search s f).startRecord.reaches = (g'.search s f).startRecord.reaches := by
  rw [Bool.eq_iff_iff, search_reaches_iff hs hf, search_reaches_iff (h.1 ▸ hs) (h.1 ▸ hf), h.reach_iff]

theorem SameEdges.loops_eq : (g.search s f).startRecord.loops = (g'.search s f).startRecord.loops := by
  rw [Bool.eq_iff_iff, search_loops_iff hs hf, search_loops_iff (h.1 ▸ hs) (h.1 ▸ hf), h.loops_iff]

theorem SameEdges.avoids_eq_iff :
    (g.search s f).startRecord.avoids = (g'.search s f).startRecord.avoids ↔
      g.Strands f s ∨ (g.Overlooks s f ↔ g'.Overlooks s f) := by
  rw [Bool.eq_iff_iff, avoids_iff_overlooks hs hf, avoids_iff_overlooks (h.1 ▸ hs) (h.1 ▸ hf), ← h.strands_iff]
  tauto

/-- Walks alone decide the third flag where none meets a loop, one meets a dead end, or one is cut off. -/
theorem SameEdges.avoids_eq
    (hw : ¬g.Loops f s ∨ g.Strands f s ∨ ∃ v, g.Reach f s v ∧ v ≠ s ∧ ¬g.Reach f v f) :
    (g.search s f).startRecord.avoids = (g'.search s f).startRecord.avoids := by
  rcases hw with hl | hstr | ⟨v, hv, hne, hcut⟩
  · rw [Bool.eq_iff_iff, avoids_iff_strands hs hf hl, h.strands_iff,
      avoids_iff_strands (h.1 ▸ hs) (h.1 ▸ hf) (h.loops_iff.not.mp hl)]
  · exact (h.avoids_eq_iff hs hf).mpr (.inl hstr)
  · have hover' : g'.Overlooks s f :=
      overlooks_of_cut_off (h.1 ▸ hs) (h.1 ▸ hf) (h.reach_iff.mp hv) hne (h.reach_iff.not.mp hcut)
    exact (h.avoids_eq_iff hs hf).mpr (.inr (iff_of_true (overlooks_of_cut_off hs hf hv hne hcut) hover'))

/-- The exit status is the same where the third flag is. -/
theorem SameEdges.encode_eq_iff :
    (g.outcome s f).encode = (g'.outcome s f).encode ↔
      (g.search s f).startRecord.avoids = (g'.search s f).startRecord.avoids := by
  simp only [outcome, h.reaches_eq hs hf, h.loops_eq hs hf, Outcome.encode]
  cases (g.search s f).startRecord.avoids <;> cases (g'.search s f).startRecord.avoids <;> simp

end TwoOrders

/-- **The order of successors**: two graphs with the same edges give the start of a search the same flags, save the one
for a way around the final vertex. They give it that one too, and so the same exit status, exactly if there is a way
into a dead end, or both searches overlook something, or neither does. That is so where no walk meets a loop, where one
meets a dead end, and where one comes to another vertex that cannot reach the final one. -/
theorem startRecord_flags_of_sameEdges (h : SameEdges g g') (hs : s < g.size) (hf : f < g.size) :
    ∃ a a', g.analyze s f = .ok a ∧ g'.analyze s f = .ok a' ∧
      a.startRecord.reaches = a'.startRecord.reaches ∧ a.startRecord.loops = a'.startRecord.loops ∧
      (a.startRecord.avoids = a'.startRecord.avoids ↔ g.Strands f s ∨ (g.Overlooks s f ↔ g'.Overlooks s f)) ∧
      (¬g.Loops f s ∨ g.Strands f s ∨ (∃ v, g.Reach f s v ∧ v ≠ s ∧ ¬g.Reach f v f) →
        a.startRecord.avoids = a'.startRecord.avoids) ∧
      ∀ (labels : Labels) (start final : String), labels.get? start = some s → labels.get? final = some f →
        ∃ q q', g.query labels start final = .ok q ∧ g'.query labels start final = .ok q' ∧
          (q.value.encode = q'.value.encode ↔ a.startRecord.avoids = a'.startRecord.avoids) := by
  have hs' := h.1 ▸ hs
  have hf' := h.1 ▸ hf
  refine ⟨g.search s f, g'.search s f, by simp [analyze, contains, hs, hf], by simp [analyze, contains, hs', hf'],
    h.reaches_eq hs hf, h.loops_eq hs hf, h.avoids_eq_iff hs hf, h.avoids_eq hs hf, ?_⟩
  intro labels start final hstart hfinal
  obtain ⟨events, hq⟩ := query_of_found hstart hfinal hs hf
  obtain ⟨events', hq'⟩ := query_of_found hstart hfinal hs' hf'
  exact ⟨_, _, hq, hq', h.encode_eq_iff hs hf⟩

/-- A fork into a loop from which the final vertex is reached, with its two ways in one order and in the other. -/
def forkA : Graph := ⟨#[[1, 2], [2, 3], [1], []], by decide⟩

@[inherit_doc forkA]
def forkB : Graph := ⟨#[[2, 1], [2, 3], [1], []], by decide⟩

theorem sameEdges_fork : SameEdges forkA forkB := sameEdges_of_lt rfl (by decide)

/-- The forks again, with a dead end that is met behind the loop. -/
def spurA : Graph := ⟨#[[1, 2], [2, 3, 4], [1], [], []], by decide⟩

@[inherit_doc spurA]
def spurB : Graph := ⟨#[[2, 1], [2, 3, 4], [1], [], []], by decide⟩

/-- On the two forks the first and the last flag of the start agree. With a dead end ahead the third one does too, in
spite of the loop, and so does the exit status. -/
theorem startRecord_flags_fork :
    (SameEdges forkA forkB ∧ ∃ a a', forkA.analyze 0 3 = .ok a ∧ forkB.analyze 0 3 = .ok a' ∧
      a.startRecord.reaches = a'.startRecord.reaches ∧ a.startRecord.loops = a'.startRecord.loops) ∧
    let labels : Labels := ⟨[("s", 0), ("f", 3)], by decide⟩
    SameEdges spurA spurB ∧ spurA.Strands 3 0 ∧ spurA.Loops 3 0 ∧
      ∃ a a', spurA.analyze 0 3 = .ok a ∧ spurB.analyze 0 3 = .ok a' ∧
        a.startRecord.avoids = a'.startRecord.avoids ∧
        ∃ q q', spurA.query labels "s" "f" = .ok q ∧ spurB.query labels "s" "f" = .ok q' ∧
          q.value.encode = q'.value.encode := by
  refine ⟨?_, ?_⟩
  · obtain ⟨a, a', ha, ha', hr, hl, -⟩ :=
      startRecord_flags_of_sameEdges sameEdges_fork (show 0 < forkA.size by decide) (show 3 < forkA.size by decide)
    exact ⟨sameEdges_fork, a, a', ha, ha', hr, hl⟩
  · intro labels
    have hspur : SameEdges spurA spurB := sameEdges_of_lt rfl (by decide)
    have hs : 0 < spurA.size := by decide
    have hf : 3 < spurA.size := by decide
    have hstrands : spurA.Strands 3 0 :=
      ⟨4, .head ⟨by decide, by decide⟩ (.single ⟨by decide, by decide⟩ : spurA.Reach 3 1 4), by decide, by decide⟩
    have hloops : spurA.Loops 3 0 := (search_loops_iff hs hf).mp (by decide +kernel)
    obtain ⟨a, a', ha, ha', -, -, havoids, -, hquery⟩ := startRecord_flags_of_sameEdges hspur hs hf
    obtain ⟨q, q', hq, hq', hencode⟩ := hquery labels "s" "f" rfl rfl
    have hsame : a.startRecord.avoids = a'.startRecord.avoids := havoids.mpr (.inl hstrands)
    exact ⟨hspur, hstrands, hloops, a, a', ha, ha', hsame, q, q', hq, hq', hencode.mpr hsame⟩

/-- On the two forks the third flag of the start, and the exit status, depend on the order. -/
theorem search_avoids_depends_on_order :
    SameEdges forkA forkB ∧
      (forkA.search 0 3).startRecord = ⟨true, true, true, .done⟩ ∧
      (forkB.search 0 3).startRecord = ⟨true, false, true, .done⟩ ∧
      (forkA.outcome 0 3).encode = 3 ∧ (forkB.outcome 0 3).encode = 2 :=
  ⟨sameEdges_fork, by decide +kernel, by decide +kernel, by decide +kernel, by decide +kernel⟩

end Waymark.Graph
