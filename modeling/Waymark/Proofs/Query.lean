import Waymark.Proofs.Search.Exact
import Waymark.Query

/-!
# What a query answers

A query for two names that stand for vertices of the graph answers from the record of the start
(`Graph.query_of_found`), any other one says which name is missing (`Graph.query_of_missing`). From what a search finds
out follows what the exit status zero means (`Graph.query_encode_eq_zero_iff`): both names are known, no walk from the
start goes on for ever without coming to the final vertex, and none ends anywhere else.
-/

namespace Waymark

open Relation

/-- What was made of a result shows that there was one. -/
theorem exists_of_map_eq_ok {ε α β : Type} {x : Except ε α} {f : α → β} {b : β} (h : x.map f = .ok b) :
    ∃ a, x = .ok a ∧ f a = b := by
  cases x with
  | error e => cases h
  | ok a => exact ⟨a, rfl, Except.ok.inj h⟩

/-- Only an outcome without a flag has the number zero. -/
theorem Outcome.encode_eq_zero_iff (o : Outcome) : o.encode = 0 ↔ o = ⟨false, false, false, false, false⟩ := by
  obtain ⟨a, b, c, d, e⟩ := o
  cases a <;> cases b <;> cases c <;> cases d <;> cases e <;> decide

/-- A name stands for a vertex that it was given to. -/
theorem Labels.mem_of_get?_eq_some {l : Labels} {name : String} {v : Vertex} (h : l.get? name = some v) :
    (name, v) ∈ l.bindings := by
  unfold get? at h
  generalize l.bindings = bs at h
  induction bs with
  | nil => cases h
  | cons b bs ih =>
    rw [lookup_cons] at h
    split at h
    next heq =>
      cases h
      rw [heq]
      exact List.mem_cons_self
    next => exact List.mem_cons_of_mem _ (ih h)

namespace Graph

/-! ## Answers -/

section Answers

variable {g : Graph} {labels : Labels} {start final : String} {s f : Vertex}

/-- What is reported about the trace from one vertex to another. -/
def outcome (g : Graph) (s f : Vertex) : Outcome :=
  let r := (g.search s f).startRecord
  ⟨false, false, !r.reaches, r.loops, r.avoids⟩

/-- Names of two vertices of the graph are answered by a search between them. -/
theorem query_of_found (hs : labels.get? start = some s) (hf : labels.get? final = some f) (hsg : s < g.size)
    (hfg : f < g.size) : ∃ events, g.query labels start final = .ok ⟨g.outcome s f, events⟩ := by
  refine ⟨(g.search s f).events, ?_⟩
  have hanalyze : g.analyze s f = .ok (g.search s f) := analyze_eq_ok_iff.mpr ⟨hsg, hfg, rfl⟩
  simp only [query, hs, hf, hanalyze]
  rfl

/-- If a name is missing, nothing else is said. -/
theorem query_of_missing (h : labels.get? start = none ∨ labels.get? final = none) :
    ∃ events, g.query labels start final =
      .ok ⟨⟨(labels.get? start).isNone, (labels.get? final).isNone, false, false, false⟩, events⟩ := by
  refine ⟨[.skipped start final (labels.get? start).isSome (labels.get? final).isSome], ?_⟩
  unfold query
  rcases h with h | h
  · rw [h]
    cases labels.get? final <;> rfl
  · rw [h]
    cases labels.get? start <;> rfl

end Answers

/-! ## The exit status zero -/

section Zero

variable {g : Graph} {s f : Vertex}

/-- Every walk from a vertex comes to the final one if none runs into a loop or a dead end. -/
theorem reach_of_arrives (hs : s < g.size) (hf : f < g.size) (h : g.Arrives f s) : g.Reach f s f := by
  by_contra hr
  refine h.2 (strands_iff.mpr (stuck_of_not_endless (fun hend => h.1 ?_) hr))
  exact (search_loops_iff hs hf).mp ((search_endless_iff hs hf).mpr hend)

/-- Nothing is wrong with the trace between two vertices exactly if every walk arrives. -/
theorem outcome_encode_eq_zero_iff (hs : s < g.size) (hf : f < g.size) :
    (g.outcome s f).encode = 0 ↔ g.Arrives f s := by
  rw [Outcome.encode_eq_zero_iff, outcome]
  simp only [Outcome.mk.injEq, true_and, Bool.not_eq_false']
  constructor
  · rintro ⟨-, hl, ha⟩
    have hex := search_exact hs hf hl
    refine ⟨fun hloops => ?_, fun hstr => ?_⟩
    · exact not_endless_iff.mpr hex.ends hloops.endless
    · rw [hex.avoids.mpr hstr] at ha
      cases ha
  · intro h
    have hl : (g.search s f).startRecord.loops = false := by
      rw [Bool.eq_false_iff]
      exact fun hl => h.1 ((search_loops_iff hs hf).mp hl)
    have ha : (g.search s f).startRecord.avoids = false := by
      rw [Bool.eq_false_iff]
      exact fun ha => h.2 ((search_exact hs hf hl).avoids.mp ha)
    exact ⟨(search_reaches_iff hs hf).mpr (reach_of_arrives hs hf h), hl, ha⟩

/-- A walk arrives if it cannot go on for ever and can only end at the final vertex. -/
theorem arrives_iff_walks (hs : s < g.size) (hf : f < g.size) :
    g.Arrives f s ↔
      (∀ v, g.Reach f s v → (∀ w, ¬g.Arc f v w) → v = f) ∧ ¬Endless (g.Arc f) s := by
  constructor
  · rintro ⟨hloops, hstr⟩
    refine ⟨fun v hv hstop => ?_, fun hend => ?_⟩
    · by_contra hne
      exact hstr (strands_iff.mpr ⟨v, hv, hne, hstop⟩)
    · exact hloops ((search_loops_iff hs hf).mp ((search_endless_iff hs hf).mpr hend))
  · rintro ⟨hends, hend⟩
    refine ⟨fun hl => hend hl.endless, fun hstr => ?_⟩
    obtain ⟨v, hv, hne, hstop⟩ := strands_iff.mp hstr
    exact hne (hends v hv hstop)

/-- The final vertex has arrived. -/
theorem arrives_final : g.Arrives f f := by
  refine ⟨?_, not_strands_final⟩
  rintro ⟨w, hw, hl⟩
  rw [reach_final_iff.mp hw] at hl
  obtain ⟨u, hu, _⟩ := TransGen.head'_iff.mp hl
  exact not_arc_final hu

/-- **The exit status zero**: a query has an answer, and its number is zero exactly if both names are known and every
walk from the start, cut where it comes to the final vertex, ends there and nowhere else. In other words, from the start
no walk runs into a loop or into a dead end. A trace from a vertex to itself is always one of these. -/
theorem query_encode_eq_zero_iff (g : Graph) (labels : Labels) (start final : String)
    (hl : ∀ b ∈ labels.bindings, b.2 < g.size) :
    ∃ r, g.query labels start final = .ok r ∧
      (r.value.encode = 0 ↔ ∃ s f, labels.get? start = some s ∧ labels.get? final = some f ∧
        (∀ v, g.Reach f s v → (∀ w, ¬g.Arc f v w) → v = f) ∧ ¬Endless (g.Arc f) s) ∧
      (r.value.encode = 0 ↔ ∃ s f, labels.get? start = some s ∧ labels.get? final = some f ∧ g.Arrives f s) ∧
      (∀ s, labels.get? start = some s → labels.get? final = some s → r.value.encode = 0) := by
  have hlt : ∀ {name v}, labels.get? name = some v → v < g.size :=
    fun h => hl _ (Labels.mem_of_get?_eq_some h)
  rcases hs : labels.get? start with _ | s
  · obtain ⟨events, hq⟩ := @query_of_missing g labels start final (.inl hs)
    refine ⟨_, hq, ?_⟩
    simp [Outcome.encode_eq_zero_iff, hs]
  · rcases hf : labels.get? final with _ | f
    · obtain ⟨events, hq⟩ := @query_of_missing g labels start final (.inr hf)
      refine ⟨_, hq, ?_⟩
      simp [Outcome.encode_eq_zero_iff, hf]
    · obtain ⟨events, hq⟩ := query_of_found hs hf (hlt hs) (hlt hf)
      refine ⟨_, hq, ?_, ?_, ?_⟩
      · simp [outcome_encode_eq_zero_iff (hlt hs) (hlt hf), arrives_iff_walks (hlt hs) (hlt hf)]
      · simp [outcome_encode_eq_zero_iff (hlt hs) (hlt hf)]
      · rintro v hv hv'
        cases hv
        cases hv'
        exact (outcome_encode_eq_zero_iff (hlt hs) (hlt hs)).mpr arrives_final

/-- A fork that joins again, with an edge from the final vertex back to the start that no walk takes. -/
theorem query_fork_encode_eq_zero :
    let g : Graph := ⟨#[[1, 2], [2], [0]], by decide⟩
    let labels : Labels := ⟨[("s", 0), ("f", 2)], by decide⟩
    (∀ b ∈ labels.bindings, b.2 < g.size) ∧ g.Arrives 2 0 ∧
      ∃ r, g.query labels "s" "f" = .ok r ∧ r.value.encode = 0 := by
  intro g labels
  have hl : ∀ b ∈ labels.bindings, b.2 < g.size := by decide
  obtain ⟨r, hr, -, hzero, -⟩ := query_encode_eq_zero_iff g labels "s" "f" hl
  have henc : r.value.encode = 0 := by
    have : (g.query labels "s" "f").map (·.value.encode) = .ok 0 := by decide +kernel
    rw [hr] at this
    exact Except.ok.inj this
  obtain ⟨s, f, hs, hf, harr⟩ := hzero.mp henc
  cases (show some 0 = some s from hs)
  cases (show some 2 = some f from hf)
  exact ⟨hl, harr, r, hr, henc⟩

end Zero

end Graph

end Waymark
