import Waymark.Proofs.Search.Sound

/-!
# Vertices without a loop

The record of a vertex for which no loop was noted is put together from those of its successors alone, and once the
vertex is finished the record is exact. Every act keeps this (`Survey.Act.clean`). The induction that it calls for is
hidden in `Acc`: all walks from such a vertex end, because all walks from its successors do.
-/

namespace Waymark

open Relation

namespace Survey

variable {g : Graph} {start final : Vertex} {S T : Survey} {r : Vertex → Record} {u v w : Vertex} {ws : List Vertex}
  {f : Frame} {fs : List Frame}

/-- The record of `v`, for which no loop was noted, is put together from those of the successors seen so far. -/
structure Explained (g : Graph) (r : Vertex → Record) (v : Vertex) (seen : List Vertex) : Prop where
  done : ∀ w ∈ seen, (r w).phase = .done ∧ (r w).loops = false
  reaches : (r v).reaches = true ↔ ∃ w ∈ seen, (r w).reaches = true
  avoids : (r v).avoids = true ↔ g.isSink v = true ∨ ∃ w ∈ seen, (r w).reaches = false ∨ (r w).avoids = true

/-- A record says what walks from a vertex do: they all end, and it is known where. -/
structure Exact (g : Graph) (final v : Vertex) (s : Record) : Prop where
  ends : Acc (Function.swap (g.Arc final)) v
  reaches : s.reaches = true ↔ g.Reach final v final
  avoids : s.avoids = true ↔ g.Strands final v

/-- Records of vertices without a loop are explained while they are in progress, and exact afterwards. -/
structure Clean (g : Graph) (final : Vertex) (S : Survey) : Prop where
  active : ∀ f ∈ S.path, (S.record f.vertex).loops = false →
    ∃ seen, g.successors f.vertex = seen ++ f.pending ∧ Explained g S.record f.vertex seen
  done : ∀ v, v < g.size → (S.record v).phase = .done → (S.record v).loops = false → Exact g final v (S.record v)

theorem exact_final (g : Graph) (final : Vertex) : Exact g final final .final where
  ends := ⟨_, fun _ h => absurd h Graph.not_arc_final⟩
  reaches := ⟨fun _ => .refl, fun _ => rfl⟩
  avoids := ⟨fun h => (by cases h), fun h => absurd h Graph.not_strands_final⟩

/-- A record that is explained by exact ones of all successors is exact. -/
theorem Explained.exact (h : Explained g r v (g.successors v)) (hv : v ≠ final)
    (hw : ∀ w ∈ g.successors v, Exact g final w (r w)) : Exact g final v (r v) where
  ends := ⟨_, fun w ha => (hw w ha.2).ends⟩
  reaches := by
    rw [h.reaches]
    constructor
    · rintro ⟨w, hm, hr⟩
      exact .head ⟨hv, hm⟩ ((hw w hm).reaches.mp hr)
    · intro hr
      rcases hr.cases_head with heq | ⟨w, ha, hr⟩
      · exact absurd heq hv
      · exact ⟨w, ha.2, (hw w ha.2).reaches.mpr hr⟩
  avoids := by
    rw [h.avoids]
    constructor
    · rintro (hs | ⟨w, hm, hr | ha⟩)
      · exact ⟨v, .refl, hv, hs⟩
      · -- no walk from `w` comes to the final vertex, and all of them end
        have hnot : ¬g.Reach final w final := by rw [← (hw w hm).reaches, hr]; simp
        have hends := not_endless_iff.mpr (hw w hm).ends
        exact (Graph.strands_iff.mpr (stuck_of_not_endless hends hnot)).head ⟨hv, hm⟩
      · exact ((hw w hm).avoids.mp ha).head ⟨hv, hm⟩
    · rintro ⟨u, hr, hne, hs⟩
      rcases hr.cases_head with rfl | ⟨w, ha, hr⟩
      · exact .inl hs
      · exact .inr ⟨w, ha.2, .inr ((hw w ha.2).avoids.mpr ⟨u, hr, hne, hs⟩)⟩

/-- Other records may change as long as those of the successors seen so far stay. -/
theorem Explained.congr {r' : Vertex → Record} {seen : List Vertex} (h : Explained g r v seen)
    (hr : ∀ w ∈ seen, (r w).phase = .done → r' w = r w) (hv : r' v = r v) : Explained g r' v seen := by
  have heq : ∀ w ∈ seen, r' w = r w := fun w hw => hr w hw (h.done w hw).1
  refine ⟨fun w hw => ?_, ?_, ?_⟩
  · rw [heq w hw]; exact h.done w hw
  · rw [hv, h.reaches]
    exact exists_congr fun w => and_congr_right fun hw => by rw [heq w hw]
  · rw [hv, h.avoids]
    exact or_congr_right (exists_congr fun w => and_congr_right fun hw => by rw [heq w hw])

/-- Absorbing one more finished successor explains one more. -/
theorem Explained.absorb {seen : List Vertex} (h : Explained g r v seen) (hv : (r v).phase ≠ .done)
    (hw : (r w).phase = .done) (hl : (r w).loops = false) :
    Explained g (Function.update r v ((r v).absorb (r w))) v (seen ++ [w]) := by
  have hne : ∀ u, (r u).phase = .done → u ≠ v := by
    rintro u hu rfl
    exact hv hu
  have hold : ∀ u ∈ seen ++ [w], Function.update r v ((r v).absorb (r w)) u = r u := fun u hu => by
    refine Function.update_of_ne (hne u ?_) _ _
    rcases List.mem_append.mp hu with hu | hu
    · exact (h.done u hu).1
    · rw [List.mem_singleton.mp hu]; exact hw
  refine ⟨fun u hu => ?_, ?_, ?_⟩
  · rw [hold u hu]
    rcases List.mem_append.mp hu with hu | hu
    · exact h.done u hu
    · rw [List.mem_singleton.mp hu]; exact ⟨hw, hl⟩
  · have hex : (∃ u ∈ seen ++ [w], (Function.update r v ((r v).absorb (r w)) u).reaches = true) ↔
        (∃ u ∈ seen, (r u).reaches = true) ∨ (r w).reaches = true := by
      rw [exists_congr fun u => and_congr_right fun hu => by rw [hold u hu]]
      simp [or_and_right, exists_or]
    rw [hex, ← h.reaches, Function.update_self]
    simp [Record.absorb]
  · have hex : (∃ u ∈ seen ++ [w], (Function.update r v ((r v).absorb (r w)) u).reaches = false ∨
          (Function.update r v ((r v).absorb (r w)) u).avoids = true) ↔
        (∃ u ∈ seen, (r u).reaches = false ∨ (r u).avoids = true) ∨ ((r w).reaches = false ∨ (r w).avoids = true) := by
      rw [exists_congr fun u => and_congr_right fun hu => by rw [hold u hu]]
      simp [or_and_right, exists_or]
    rw [hex, ← or_assoc, ← h.avoids, Function.update_self]
    cases hr : (r w).reaches <;> simp [Record.absorb, hr]

theorem initial_clean (g : Graph) (start final : Vertex) : Clean g final (initial g start final) := by
  have hblank : ∀ s v, v < g.size → v ≠ start → (Function.update (blank g) start s v).phase ≠ .done :=
    fun s v hv hne => by simp [Function.update_of_ne hne, blank, hv, Record.unvisited]
  unfold initial
  split
  next h =>
    subst h
    refine ⟨by simp, fun v hv hd _ => ?_⟩
    by_cases hs : v = start
    · subst hs
      simp only [Function.update_self]
      exact exact_final g v
    · exact absurd hd (hblank _ v hv hs)
  next h =>
    refine ⟨fun f hf _ => ⟨[], ?_, ?_⟩, fun v hv hd _ => ?_⟩
    · rw [List.mem_singleton.mp hf]; rfl
    · rw [List.mem_singleton.mp hf]
      exact ⟨by simp, by simp [Record.entered], by simp [Record.entered]⟩
    · by_cases hs : v = start
      · subst hs; simp [Record.entered] at hd
      · exact absurd hd (hblank _ v hv hs)

/-- A vertex that is left without a loop has an exact record. -/
theorem Clean.leave (h : Clean g final ⟨r, ⟨v, []⟩ :: fs⟩) (hv : v ≠ final) (hl : (r v).loops = false) :
    Exact g final v (r v) := by
  obtain ⟨seen, hseen, hex⟩ := h.active ⟨v, []⟩ List.mem_cons_self hl
  rw [List.append_nil] at hseen
  rw [← hseen] at hex
  refine hex.exact hv fun w hw => ?_
  obtain ⟨hd, hl⟩ := hex.done w hw
  exact h.done w (g.lt_size_of_mem_successors hw) hd hl

/-- A vertex that is finished without a loop has an exact record. -/
theorem Act.exact_of_done (ha : Act g final S T) (hV : Valid g start final S) (h : Clean g final S) (hv : v < g.size)
    (hd : (T.record v).phase = .done) (hl : (T.record v).loops = false) : Exact g final v (T.record v) := by
  rcases ha.done_cases hd with hd' | ⟨rfl, _⟩ | ⟨fs, hp, rfl⟩
  · rw [ha.frozen hV hd'] at hl ⊢
    exact h.done v hv hd' hl
  · rw [(ha.valid hV).record_final hd]
    exact exact_final g v
  · obtain ⟨r, path⟩ := S
    cases hp
    simp only [Function.update_self] at hl ⊢
    have hex := h.leave (hV.ne_final hV.phase_head) hl
    exact ⟨hex.ends, hex.reaches, hex.avoids⟩

theorem Act.clean (ha : Act g final S T) (hV : Valid g start final S) (h : Clean g final S) : Clean g final T := by
  refine ⟨?_, fun v hv hd hl => ha.exact_of_done hV h hv hd hl⟩
  -- a vertex of the old path whose record stays is explained as before, since finished records stay too
  have hold : ∀ f ∈ S.path, T.record f.vertex = S.record f.vertex → (T.record f.vertex).loops = false →
      ∃ seen, g.successors f.vertex = seen ++ f.pending ∧ Explained g T.record f.vertex seen := fun f hf heq hl => by
    obtain ⟨seen, hseen, hex⟩ := h.active f hf (heq ▸ hl)
    exact ⟨seen, hseen, hex.congr (fun w _ hd => ha.frozen hV hd) heq⟩
  cases ha with
  | @enter r v w ws fs hw hf =>
    intro f hm hl
    rcases List.mem_cons.mp hm with rfl | hm
    · exact ⟨[], rfl, by simp, by simp [Record.entered], by simp [Record.entered]⟩
    · have hne : f.vertex ≠ w := hV.vertex_ne hm (by simp [hw])
      exact hold f hm (Function.update_of_ne hne _ _) hl
  | @settle r v ws fs hw =>
    exact fun f hm hl => hold f hm (Function.update_of_ne (hV.ne_final (hV.phase_of_mem hm)) _ _) hl
  | @absorb r v w ws fs hw =>
    intro f hm hl
    rcases List.mem_cons.mp hm with rfl | hm
    · obtain ⟨hlv, hlw⟩ : (r v).loops = false ∧ (r w).loops = false := by
        simpa [Record.absorb] using hl
      obtain ⟨seen, hseen, hex⟩ := h.active ⟨v, w :: ws⟩ List.mem_cons_self hlv
      refine ⟨seen ++ [w], by rw [hseen]; simp, hex.absorb ?_ hw hlw⟩
      rw [hV.phase_head]; simp
    · exact hold f (List.mem_cons_of_mem _ hm) (Function.update_of_ne (hV.ne_head hm) _ _) hl
  | @back r v w ws fs hw =>
    have hspan : ∀ u, (markAll r (spanTo w (⟨v, w :: ws⟩ :: fs)) u).loops = false →
        u ∉ spanTo w (⟨v, w :: ws⟩ :: fs) := fun u hl hm => by
      rw [markAll_of_mem hm] at hl; cases hl
    intro f hm hl
    rcases List.mem_cons.mp hm with rfl | hm
    · -- the innermost vertex lies on every span
      refine absurd ?_ (hspan v hl)
      unfold spanTo
      split
      next he => rw [← he]; exact List.mem_singleton.mpr rfl
      next => exact List.mem_cons_self
    · exact hold f (List.mem_cons_of_mem _ hm) (markAll_of_notMem (hspan _ hl)) hl
  | @leave r v fs =>
    exact fun f hm hl => hold f (List.mem_cons_of_mem _ hm) (Function.update_of_ne (hV.ne_head hm) _ _) hl

end Survey

end Waymark
