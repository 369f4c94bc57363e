import Mathlib.Data.Nat.Count
import Mathlib.Data.Set.Card
import Mathlib.Data.Set.Function
import Waymark.Proofs.Search.Records
import Waymark.Proofs.Search.Subdivision

/-!
# What a search sees

A search looks at the successors of the vertices that it meets, in their order, and at nothing else: not at the
successors of the final vertex, not at vertices that it does not meet, and not at the numbers of vertices. So where
another graph holds a copy of the region that it explored, a search there meets the copies and finds out the same about
each of them (`Graph.analyze_record?_image`). The region itself is given by the paths of the graph
(`Graph.analyze_record?_isSome_iff`).
-/

namespace Waymark

/-! ## The region -/

/-- The vertices that a search met. -/
def Analysis.region (a : Analysis) : Set Vertex := {v | (a.record? v).isSome = true}

/-- The number of vertices that a search met is the size of its region. -/
theorem Analysis.encard_region (a : Analysis) : a.region.encard = a.visited := by
  have hrecords : a.records.toList = (List.range a.records.size).map fun v => a.records.getD v .outside := by
    refine List.ext_getElem (by simp) fun v hv _ => ?_
    have hlt : v < a.records.size := hv
    simp [Array.getD, hlt]
  have hregion : a.region = ↑{v ∈ Finset.range a.records.size | (a.records.getD v .outside).phase = .done} := by
    ext v
    simp [region, Option.isSome_iff_exists, Graph.record?_eq_some_iff]
  rw [hregion, Set.encard_coe_eq_coe_finsetCard, ← Nat.count_eq_card_filter_range, visited, ← Array.countP_toList,
    hrecords, List.countP_map]
  rfl

namespace Graph

variable {g g' : Graph} {s t v : Vertex} {φ : Vertex → Vertex}

theorem mem_region_iff (hs : s < g.size) (ht : t < g.size) : v ∈ (g.search s t).region ↔ g.Reach t s v :=
  search_record?_isSome_iff hs ht v

/-- **The region and what can be reached are exact**: a search leaves records at the vertices to which a path leads from
its start that does not come to the final vertex before its end, at all of them and at no others. It counts them, and it
leaves none of them in progress. The start is recorded to reach the final vertex if and only if a path leads there. -/
theorem analyze_record?_isSome_iff (hs : s < g.size) (ht : t < g.size) :
    ∃ a, g.analyze s t = .ok a ∧
      (∀ v, (a.record? v).isSome = true ↔ ∃ path, g.IsPath s v path ∧ t ∉ path.dropLast) ∧
      a.visited = {v | ∃ path, g.IsPath s v path ∧ t ∉ path.dropLast}.encard ∧
      (∀ r ∈ a.records, r.phase ≠ .inProgress) ∧
      (a.startRecord.reaches = true ↔ ∃ path, g.IsPath s t path) := by
  have hmet : ∀ v, v ∈ (g.search s t).region ↔ ∃ path, g.IsPath s v path ∧ t ∉ path.dropLast := fun v => by
    rw [mem_region_iff hs ht, reach_iff_exists_path]
  refine ⟨g.search s t, analyze_eq_ok_iff.mpr ⟨hs, ht, rfl⟩, hmet, ?_, ?_, ?_⟩
  · rw [← Analysis.encard_region]
    exact congrArg Set.encard (Set.ext hmet)
  · exact fun r hr => phase_ne_inProgress_of_mem_records hs ht hr
  · rw [search_reaches_iff hs ht, reach_final_iff_exists_path]

/-- Vertex 1 is finished while the start, its only successor, is in progress, and vertex 3 lies behind the final
one. -/
theorem analyze_record?_isSome_iff_early_finish :
    let g : Graph := ⟨#[[1, 2], [0], [3], [0], [0]], by decide⟩
    0 < g.size ∧ 2 < g.size ∧ ∃ a, g.analyze 0 2 = .ok a ∧
      (∃ r, a.record? 1 = some r ∧ r.reaches = false) ∧ (∃ path, g.IsPath 0 1 path ∧ 2 ∉ path.dropLast) ∧
      a.record? 3 = none ∧ g.IsPath 0 3 [0, 2, 3] ∧ (¬∃ path, g.IsPath 0 3 path ∧ 2 ∉ path.dropLast) ∧
      {v | ∃ path, g.IsPath 0 v path ∧ 2 ∉ path.dropLast}.encard = 3 ∧ (∀ r ∈ a.records, r.phase ≠ .inProgress) ∧
      a.startRecord.reaches = true ∧ ∃ path, g.IsPath 0 2 path := by
  intro g
  have hs : 0 < g.size := by decide
  have ht : 2 < g.size := by decide
  obtain ⟨a, ha, hmet, hvisited, hphase, hreaches⟩ := analyze_record?_isSome_iff hs ht
  have hfound : (g.analyze 0 2).map (fun a => (a.record? 1, a.record? 3, a.visited, a.startRecord.reaches)) =
      .ok (some ⟨false, false, true, .done⟩, none, 3, true) := by decide +kernel
  rw [ha] at hfound
  obtain ⟨h₁, h₃, hcount, hstart⟩ :
      a.record? 1 = _ ∧ a.record? 3 = none ∧ a.visited = 3 ∧ a.startRecord.reaches = true := by
    simpa using Except.ok.inj hfound
  have hbehind : g.IsPath 0 3 [0, 2, 3] := .cons (by decide) (.cons (by decide) (.single 3))
  refine ⟨hs, ht, a, ha, ⟨_, h₁, rfl⟩, (hmet 1).mp (by rw [h₁]; rfl), h₃, hbehind, ?_, ?_, hphase, hstart,
    hreaches.mp hstart⟩
  · rw [← hmet 3, h₃]
    exact Bool.false_ne_true
  · rw [← hvisited, hcount]
    rfl

/-! ## Copies of the region -/

/-- `φ` copies the region that a search from `s` for `t` explores into `g'`: it keeps apart the vertices that are met and
the final one, and the copy of a vertex lists the copies of its successors in the same order. Nothing is asked of the
successors of `t` and its copy. -/
structure Copies (g g' : Graph) (s t : Vertex) (φ : Vertex → Vertex) : Prop where
  lt : ∀ v ∈ insert t (g.search s t).region, φ v < g'.size
  injOn : Set.InjOn φ (insert t (g.search s t).region)
  successors : ∀ v ∈ (g.search s t).region, v ≠ t → g'.successors (φ v) = (g.successors v).map φ

theorem mem_insert_region_iff (hs : s < g.size) (ht : t < g.size) :
    v ∈ insert t (g.search s t).region ↔ g.Met s t v := by
  rw [Set.mem_insert_iff, mem_region_iff hs ht, Met, or_comm]

section Copied

variable (h : g.Copies g' s t φ) (hs : s < g.size) (ht : t < g.size)

include h hs ht

/-- A copy is a picture without doors. -/
theorem Copies.subdivides : g.Subdivides g' s t φ φ where
  lt hv := h.lt _ ((mem_insert_region_iff hs ht).mpr hv)
  inj hv hw heq := h.injOn ((mem_insert_region_iff hs ht).mpr hv) ((mem_insert_region_iff hs ht).mpr hw) heq
  successors hv hvt := h.successors _ ((mem_region_iff hs ht).mpr hv) hvt
  door _ hne := absurd rfl hne

theorem Copies.start_lt : φ s < g'.size := (h.subdivides hs ht).lt (.inl .refl)

theorem Copies.final_lt : φ t < g'.size := (h.subdivides hs ht).lt (.inr rfl)

/-- A search among the copies meets the copies of what is met. -/
theorem Copies.region_eq : (g'.search (φ s) (φ t)).region = Set.image φ (g.search s t).region := by
  ext w
  rw [mem_region_iff (h.start_lt hs ht) (h.final_lt hs ht), Set.mem_image]
  constructor
  · intro hw
    obtain ⟨v, hv, heq⟩ := (h.subdivides hs ht).exists_of_reach hw
    exact ⟨v, (mem_region_iff hs ht).mpr hv, (heq.elim id id).symm⟩
  · rintro ⟨v, hv, rfl⟩
    exact (h.subdivides hs ht).reach ((mem_region_iff hs ht).mp hv)

/-- The copy of a vertex that is met gets its record. -/
theorem Copies.record?_eq (hv : v ∈ (g.search s t).region) :
    (g'.search (φ s) (φ t)).record? (φ v) = (g.search s t).record? v := by
  have hv' : φ v ∈ (g'.search (φ s) (φ t)).region := by
    rw [h.region_eq hs ht]
    exact Set.mem_image_of_mem φ hv
  obtain ⟨r, hr⟩ := Option.isSome_iff_exists.mp hv
  obtain ⟨r', hr'⟩ := Option.isSome_iff_exists.mp hv'
  have hrecord : r' = r := calc
    r' = (g'.search (φ s) (φ t)).records.getD (φ v) .outside := (record?_eq_some_iff.mp hr').2.1.symm
    _ = (g.search s t).records.getD v .outside :=
      (h.subdivides hs ht).record_eq hs ht rfl (.inl ((mem_region_iff hs ht).mp hv))
    _ = r := (record?_eq_some_iff.mp hr).2.1
  rw [hr, hr', hrecord]

end Copied

/-- **A search sees only the region that it explores**, and no numbers: where `φ` copies that region into another graph,
a search there meets the copies of the vertices met here and no others, and each gets the record of the vertex that it
is a copy of. -/
theorem analyze_record?_image (hs : s < g.size) (ht : t < g.size) (h : g.Copies g' s t φ) :
    ∃ a a', g.analyze s t = .ok a ∧ g'.analyze (φ s) (φ t) = .ok a' ∧ a'.region = Set.image φ a.region ∧
      ∀ v ∈ a.region, a'.record? (φ v) = a.record? v := by
  refine ⟨g.search s t, g'.search (φ s) (φ t), ?_, ?_, h.region_eq hs ht, fun v hv => h.record?_eq hs ht hv⟩
  · exact analyze_eq_ok_iff.mpr ⟨hs, ht, rfl⟩
  · exact analyze_eq_ok_iff.mpr ⟨h.start_lt hs ht, h.final_lt hs ht, rfl⟩

/-- A loop with its way in and out, and a vertex that is not met. In the copy the numbers are others, edges leave the
final vertex, and of the vertices that are not met one leads into the copy and one to itself. -/
theorem analyze_record?_image_renumbered :
    let g : Graph := ⟨#[[1, 2], [2, 3], [1], [], [0, 4]], by decide⟩
    let g' : Graph := ⟨#[[2], [4, 5], [0, 1], [0], [2, 0], [5]], by decide⟩
    let φ : Vertex → Vertex := fun v => [4, 2, 0, 1].getD v 5
    0 < g.size ∧ 3 < g.size ∧ g.Copies g' 0 3 φ ∧
      ∃ a a', g.analyze 0 3 = .ok a ∧ g'.analyze 4 1 = .ok a' ∧ a'.region = Set.image φ a.region ∧
        ∀ v ∈ a.region, a'.record? (φ v) = a.record? v := by
  intro g g' φ
  have hs : 0 < g.size := by decide
  have ht : 3 < g.size := by decide
  have hregion : (g.search 0 3).region = {v | v < 4} := by
    ext v
    by_cases hv : v < g.size
    · have hmet : ∀ v < 5, ((g.search 0 3).record? v).isSome = true ↔ v < 4 := by decide +kernel
      exact hmet v hv
    · have hnot : ¬g.Reach 3 0 v := fun hr => hv (lt_size_of_reach hs hr)
      exact iff_of_false (mt (mem_region_iff hs ht).mp hnot) fun hlt => hv (Nat.lt_succ_of_lt hlt)
  have hinsert : insert 3 (g.search 0 3).region = {v | v < 4} := by
    rw [hregion]
    exact Set.insert_eq_of_mem (show 3 < 4 by decide)
  have h : g.Copies g' 0 3 φ := by
    refine ⟨?_, ?_, ?_⟩
    · rw [hinsert]
      exact (by decide : ∀ v < 4, φ v < 6)
    · rw [hinsert]
      intro v hv w hw
      exact (by decide : ∀ v < 4, ∀ w < 4, φ v = φ w → v = w) v hv w hw
    · rw [hregion]
      exact (by decide : ∀ v < 4, v ≠ 3 → g'.successors (φ v) = (g.successors v).map φ)
  exact ⟨hs, ht, h, analyze_record?_image hs ht h⟩

end Graph

end Waymark
