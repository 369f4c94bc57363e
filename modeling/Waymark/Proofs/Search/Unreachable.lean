import Waymark.Proofs.Search.SuccessorOrder

/-!
# Traces that cannot arrive

Where no walk comes to the final vertex, a search that leaves its start finishes some vertex without having seen the
final one, and reports a way around it. A search that stays at its start because every edge leads back there reports a
loop instead, and no way around (`Graph.query_avoidable_of_unreachable_iff`).
-/

namespace Waymark.Graph

open Relation

variable {g : Graph} {s f v : Vertex}

/-- A vertex with edges, every one of which leads back to it. -/
def TurnsBack (g : Graph) (v : Vertex) : Prop := g.successors v ≠ [] ∧ ∀ w ∈ g.successors v, w = v

instance (g : Graph) (v : Vertex) : Decidable (g.TurnsBack v) :=
  inferInstanceAs (Decidable (g.successors v ≠ [] ∧ ∀ w ∈ g.successors v, w = v))

/-- A walk from such a vertex stays there. -/
theorem TurnsBack.eq_of_reach (h : g.TurnsBack s) (hv : g.Reach f s v) : v = s := by
  induction hv with
  | refl => rfl
  | tail _ harc ih =>
    subst ih
    exact h.2 _ harc.2

theorem TurnsBack.not_strands (h : g.TurnsBack s) : ¬g.Strands f s := by
  rintro ⟨v, hv, -, hsink⟩
  rw [h.eq_of_reach hv, isSink_iff, ← List.eq_nil_iff_forall_not_mem] at hsink
  exact h.1 hsink

theorem TurnsBack.loops (h : g.TurnsBack s) (hne : s ≠ f) : g.Loops f s := by
  obtain ⟨w, ws, hw⟩ := List.exists_cons_of_ne_nil h.1
  have hmem : w ∈ g.successors s := by simp [hw]
  have hself : g.Arc f s s := ⟨hne, h.2 w hmem ▸ hmem⟩
  exact ⟨s, .refl, .single hself⟩

theorem TurnsBack.not_overlooks (h : g.TurnsBack s) (hs : s < g.size) (hf : f < g.size) : ¬g.Overlooks s f := by
  rintro ⟨v, r, hne, hr, -⟩
  have hv := (search_record?_isSome_iff hs hf v).mp (Option.isSome_iff_exists.mpr ⟨r, hr⟩)
  exact hne (h.eq_of_reach hv)

/-- A search that stays at its start finds a loop and nothing else. -/
theorem TurnsBack.outcome_eq (h : g.TurnsBack s) (hne : s ≠ f) (hs : s < g.size) (hf : f < g.size) :
    g.outcome s f = ⟨false, false, true, true, false⟩ := by
  have hreaches : (g.search s f).startRecord.reaches = false := by
    rw [Bool.eq_false_iff, Ne, search_reaches_iff hs hf]
    exact fun hr => hne (h.eq_of_reach hr).symm
  have havoids : (g.search s f).startRecord.avoids = false := by
    rw [Bool.eq_false_iff, Ne, avoids_iff_overlooks hs hf]
    exact not_or.mpr ⟨h.not_strands, h.not_overlooks hs hf⟩
  simp [outcome, hreaches, havoids, (search_loops_iff hs hf).mpr (h.loops hne)]

/-- A search that cannot arrive reports a way around the final vertex, unless it stays at its start. -/
theorem avoids_of_not_reach (h : ¬g.TurnsBack s) (hs : s < g.size) (hf : f < g.size) (hcut : ¬g.Reach f s f) :
    (g.search s f).startRecord.avoids = true := by
  have hne : s ≠ f := by
    rintro rfl
    exact hcut .refl
  rw [avoids_iff_overlooks hs hf]
  by_cases hnil : g.successors s = []
  · exact .inl ⟨s, .refl, hne, isSink_iff.mpr (by simp [hnil])⟩
  · obtain ⟨w, hw, hws⟩ : ∃ w ∈ g.successors s, w ≠ s := by
      simpa [TurnsBack, hnil] using h
    have harc : g.Arc f s w := ⟨hne, hw⟩
    exact .inr (overlooks_of_cut_off hs hf (.single harc) hws fun hr => hcut (.head harc hr))

/-- **A final vertex that cannot be reached**: a query between two names reports it as avoidable too, except where every
edge of the start leads back to the start, which then has one and is not the final vertex. There the query reports that
the final vertex cannot be reached and that there is a loop, and nothing else. -/
theorem query_avoidable_of_unreachable_iff (g : Graph) (labels : Labels) (start final : String)
    (hl : ∀ b ∈ labels.bindings, b.2 < g.size) (hs : labels.get? start = some s) (hf : labels.get? final = some f) :
    ∃ r, g.query labels start final = .ok r ∧
      ((r.value.finalUnreachable = true → r.value.finalAvoidable = true) ↔ ¬(s ≠ f ∧ g.TurnsBack s)) ∧
      (s ≠ f ∧ g.TurnsBack s → r.value = ⟨false, false, true, true, false⟩) := by
  have hsg : s < g.size := hl _ (Labels.mem_of_get?_eq_some hs)
  have hfg : f < g.size := hl _ (Labels.mem_of_get?_eq_some hf)
  obtain ⟨events, hq⟩ := query_of_found hs hf hsg hfg
  refine ⟨_, hq, ⟨?_, ?_⟩, fun h => h.2.outcome_eq h.1 hsg hfg⟩
  · rintro himp ⟨hne, hback⟩
    rw [hback.outcome_eq hne hsg hfg] at himp
    cases himp rfl
  · intro h hunreachable
    have hcut : ¬g.Reach f s f := by
      rw [← search_reaches_iff hsg hfg]
      simpa [outcome] using hunreachable
    refine avoids_of_not_reach (fun hback => h ⟨?_, hback⟩) hsg hfg hcut
    rintro rfl
    exact hcut .refl

/-- A loop of two vertices, the only way from the first, and a final vertex apart. -/
theorem query_avoidable_of_unreachable_pair :
    let g : Graph := ⟨#[[1], [0], []], by decide⟩
    let labels : Labels := ⟨[("s", 0), ("f", 2)], by decide⟩
    (∀ b ∈ labels.bindings, b.2 < g.size) ∧ labels.get? "s" = some 0 ∧ labels.get? "f" = some 2 ∧
      ∃ r, g.query labels "s" "f" = .ok r ∧ r.value.finalUnreachable = true ∧ r.value.finalAvoidable = true := by
  intro g labels
  have hl : ∀ b ∈ labels.bindings, b.2 < g.size := by decide
  obtain ⟨r, hr, hiff, -⟩ := query_avoidable_of_unreachable_iff g labels "s" "f" hl (s := 0) (f := 2) rfl rfl
  have hunreachable : r.value.finalUnreachable = true := by
    have : (g.query labels "s" "f").map (·.value.finalUnreachable) = .ok true := by decide +kernel
    rw [hr] at this
    exact Except.ok.inj this
  exact ⟨hl, rfl, rfl, r, hr, hunreachable, hiff.mpr (by decide) hunreachable⟩

/-- A start whose only edge is a loop: the final vertex is reported as out of reach, but not as avoidable. -/
theorem query_unreachable_not_avoidable :
    let g : Graph := ⟨#[[0], []], by decide⟩
    let labels : Labels := ⟨[("s", 0), ("f", 1)], by decide⟩
    (∀ b ∈ labels.bindings, b.2 < g.size) ∧
      ∃ r, g.query labels "s" "f" = .ok r ∧ r.value.finalUnreachable = true ∧ r.value.finalAvoidable = false ∧
        r.value.encode = 6 := by
  intro g labels
  have houtcome := TurnsBack.outcome_eq (show g.TurnsBack 0 by decide) (show 0 ≠ 1 by decide) (by decide) (by decide)
  obtain ⟨events, hq⟩ := @query_of_found g labels "s" "f" 0 1 rfl rfl (by decide) (by decide)
  rw [houtcome] at hq
  exact ⟨by decide, _, hq, rfl, rfl, rfl⟩

end Waymark.Graph
