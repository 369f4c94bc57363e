import Waymark.Proofs.Query
import Waymark.Proofs.Search.Records
import Waymark.Tool

/-!
# Exit statuses

Five flags make thirty-two numbers, and ten of them are numbers of outcomes (`Outcome.codes`). If a name is missing, only
that is said. Otherwise the two flags for missing names are not set, and of the eight numbers that are left one never
comes up: a final vertex that cannot be reached is never all there is to say, since the record of the start then knows of
a dead end or of a loop (`Graph.query_encode_codes`).
-/

namespace Waymark

/-! ## Numbers of outcomes -/

namespace Outcome

/-- The numbers of the outcomes that queries have. -/
def codes : List Nat := [0, 1, 2, 3, 5, 6, 7, 8, 16, 24]

/-- Where a name is missing, nothing else is said. -/
theorem encode_mem_codes_of_missing {startMissing finalMissing : Bool}
    (h : startMissing = true ∨ finalMissing = true) :
    encode ⟨startMissing, finalMissing, false, false, false⟩ ∈ codes := by
  revert h
  cases startMissing <;> cases finalMissing <;> decide

/-- A final vertex that cannot be reached comes with another flag. -/
theorem encode_mem_codes_of_found {unreachable loop avoidable : Bool}
    (h : unreachable = true → avoidable = true ∨ loop = true) :
    encode ⟨false, false, unreachable, loop, avoidable⟩ ∈ codes := by
  revert h
  cases unreachable <;> cases loop <;> cases avoidable <;> decide

end Outcome

/-! ## Numbers of answers -/

namespace Graph

theorem outcome_encode_mem_codes {g : Graph} {s f : Vertex} (hs : s < g.size) (hf : f < g.size) :
    (g.outcome s f).encode ∈ Outcome.codes := by
  refine Outcome.encode_mem_codes_of_found fun hr => ?_
  exact avoids_or_loops_of_record? hs hf (search_record?_start hs hf) (by simpa using hr)

theorem query_encode_mem_codes (g : Graph) (labels : Labels) (start final : String)
    (hl : ∀ b ∈ labels.bindings, b.2 < g.size) :
    ∃ r, g.query labels start final = .ok r ∧ r.value.encode ∈ Outcome.codes := by
  have hlt : ∀ {name v}, labels.get? name = some v → v < g.size :=
    fun h => hl _ (Labels.mem_of_get?_eq_some h)
  by_cases hmissing : labels.get? start = none ∨ labels.get? final = none
  · obtain ⟨events, hq⟩ := @query_of_missing g labels start final hmissing
    exact ⟨_, hq, Outcome.encode_mem_codes_of_missing (by simpa using hmissing)⟩
  · rw [not_or] at hmissing
    obtain ⟨s, hs⟩ := Option.ne_none_iff_exists'.mp hmissing.1
    obtain ⟨f, hf⟩ := Option.ne_none_iff_exists'.mp hmissing.2
    obtain ⟨events, hq⟩ := query_of_found hs hf (hlt hs) (hlt hf)
    exact ⟨_, hq, outcome_encode_mem_codes (hlt hs) (hlt hf)⟩

/-- Every way that a trace to the vertex 0 can go, each from a vertex of its own. -/
def gallery : Graph := ⟨#[[], [0], [0, 3], [], [4], [5, 0], [6, 0, 3], [4]], by decide⟩

/-- The vertices of the gallery by what is found there. -/
def galleryLabels : Labels :=
  ⟨[("final", 0), ("road", 1), ("fork", 2), ("end", 3), ("wheel", 4), ("lap", 5), ("maze", 6), ("trap", 7)], by decide⟩

/-- A query for each number. -/
def galleryTour : List (String × String) :=
  [("road", "final"), ("fork", "final"), ("lap", "final"), ("maze", "final"), ("end", "final"), ("wheel", "final"),
    ("trap", "final"), ("road", ""), ("", "final"), ("", "")]

theorem map_encode_galleryTour :
    galleryTour.map (fun q => (gallery.query galleryLabels q.1 q.2).map (·.value.encode)) =
      Outcome.codes.map .ok := by
  decide +kernel

theorem exists_query_of_mem_codes {c : Nat} (hc : c ∈ Outcome.codes) :
    ∃ start final r, gallery.query galleryLabels start final = .ok r ∧ r.value.encode = c := by
  have hmem : (.ok c : Except Misuse Nat) ∈ Outcome.codes.map .ok := List.mem_map_of_mem hc
  rw [← map_encode_galleryTour] at hmem
  obtain ⟨q, -, hq⟩ := List.mem_map.mp hmem
  obtain ⟨r, hr, hencode⟩ := exists_of_map_eq_ok hq
  exact ⟨q.1, q.2, r, hr, hencode⟩

/-- **The exit statuses**: every query for names of vertices of a graph has an answer, the number of the answer is one of
ten, and each of the ten is the number of some answer. The number 4 is not among them: a record that a search leaves at a
vertex and that knows of no way to the final vertex knows of a way around it or of a loop. Neither is the status of a
run without an answer. -/
theorem query_encode_codes :
    (∀ (g : Graph) (labels : Labels) (start final : String), (∀ b ∈ labels.bindings, b.2 < g.size) →
      ∃ r, g.query labels start final = .ok r ∧ r.value.encode ∈ Outcome.codes) ∧
    (∀ c ∈ Outcome.codes, ∃ (g : Graph) (labels : Labels) (start final : String) (r : Logged Outcome),
      (∀ b ∈ labels.bindings, b.2 < g.size) ∧ g.query labels start final = .ok r ∧ r.value.encode = c) ∧
    (∀ (g : Graph) (start final v : Vertex) (a : Analysis) (r : Record), g.analyze start final = .ok a →
      a.record? v = some r → r.reaches = false → r.avoids = true ∨ r.loops = true) ∧
    4 ∉ Outcome.codes ∧ failureCode ∉ Outcome.codes := by
  refine ⟨query_encode_mem_codes, fun c hc => ?_, ?_, by decide, by decide⟩
  · obtain ⟨start, final, r, hr, hencode⟩ := exists_query_of_mem_codes hc
    exact ⟨gallery, galleryLabels, start, final, r, by decide, hr, hencode⟩
  · intro g start final v a r ha hv hr
    obtain ⟨hs, hf, rfl⟩ := analyze_eq_ok_iff.mp ha
    exact avoids_or_loops_of_record? hs hf hv hr

/-- A start whose only edge is a loop: all that its record notes is the loop. -/
theorem query_encode_codes_wheel :
    (∀ b ∈ galleryLabels.bindings, b.2 < gallery.size) ∧
      (∃ r, gallery.query galleryLabels "wheel" "final" = .ok r ∧ r.value.encode ∈ Outcome.codes) ∧
      ∃ a r, gallery.analyze 4 0 = .ok a ∧ a.record? 4 = some r ∧ r.reaches = false ∧ r.avoids = false ∧
        r.loops = true := by
  obtain ⟨hcodes, -, hrecord, -⟩ := query_encode_codes
  have hl : ∀ b ∈ galleryLabels.bindings, b.2 < gallery.size := by decide
  have ha : gallery.analyze 4 0 = .ok (gallery.search 4 0) := analyze_eq_ok_iff.mpr ⟨by decide, by decide, rfl⟩
  have hv : (gallery.search 4 0).record? 4 = some ⟨false, false, true, .done⟩ := by decide +kernel
  have hloops := (hrecord gallery 4 0 4 _ _ ha hv rfl).resolve_left (by decide)
  exact ⟨hl, hcodes gallery galleryLabels "wheel" "final" hl, _, _, ha, hv, rfl, rfl, hloops⟩

end Graph

end Waymark
