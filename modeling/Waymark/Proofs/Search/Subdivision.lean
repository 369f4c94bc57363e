import Waymark.Proofs.Search.Exact
import Waymark.Proofs.Search.Mirror

/-!
# Searches in a subdivided graph

Where a graph holds a picture of another one, all images get the same records if no door stands before the start
(`Graph.Subdivides.record_eq`), or if no walk comes back to it. Where one does, it finds the door new, and the door
finds the start still in progress: the door is finished without having seen the final vertex
(`Graph.Subdivides.startRecord_flags`).
-/

namespace Waymark

open Relation

/-! ## Vertices that lead back -/

/-- Nothing is ever absorbed at a vertex that only leads back to the start: the start is in progress as long as the
search lasts. -/
theorem Survey.Act.reaches_eq_false {g : Graph} {start final v : Vertex} {S T : Survey} (ha : Act g final S T)
    (hV : Valid g start final S) (hvf : v ≠ final) (hsucc : g.successors v = [start])
    (h : (S.record v).reaches = false) : (T.record v).reaches = false := by
  cases ha with
  | @enter r u w ws fs _ _ =>
    by_cases hw : v = w
    · subst hw
      simp [Record.entered]
    · simpa [Function.update_of_ne hw] using h
  | @settle r u ws fs _ => simpa [Function.update_of_ne hvf] using h
  | @absorb r u w ws fs hdone =>
    have hu : v ≠ u := by
      rintro rfl
      have hw : w ∈ g.successors v := (hV.due _ List.mem_cons_self).subset List.mem_cons_self
      rw [hsucc, List.mem_singleton] at hw
      have hphase := hV.phase_start (by simp)
      rw [← hw, hdone] at hphase
      cases hphase
    simpa [Function.update_of_ne hu] using h
  | @back r u w ws fs _ =>
    by_cases hm : v ∈ spanTo w (⟨u, w :: ws⟩ :: fs)
    · simpa [markAll_of_mem hm, Record.markLoop] using h
    · simpa [markAll_of_notMem hm] using h
  | @leave r u fs =>
    by_cases hu : v = u
    · subst hu
      simpa [Record.finish] using h
    · simpa [Function.update_of_ne hu] using h

namespace Graph

/-- **A vertex that only leads back to the start** is finished before it is seen to reach the final vertex, and so it is
taken for a way around it. -/
theorem search_avoids_of_successors_eq_start {g : Graph} {start final v : Vertex} (hs : start < g.size)
    (hf : final < g.size) (hr : g.Reach final start v) (hvs : v ≠ start) (hvf : v ≠ final)
    (hsucc : g.successors v = [start]) : (g.search start final).startRecord.avoids = true := by
  obtain ⟨S, hacts, -, -, -, hrec⟩ := g.search_act hs hf
  have hfalse : (S.record v).reaches = false := by
    clear hrec
    induction hacts with
    | refl =>
      unfold Survey.initial
      split <;> simp only [Function.update_of_ne hvs] <;> unfold Survey.blank <;> split <;> rfl
    | tail hacts hact ih =>
      exact hact.reaches_eq_false ((Survey.initial_valid hs hf).of_acts hacts) hvf hsucc ih
  obtain ⟨s, hv⟩ := Option.isSome_iff_exists.mp ((search_record?_isSome_iff hs hf v).mpr hr)
  refine (search_avoids_iff hs hf).mpr (.inr ⟨v, s, hvs, hv, ?_⟩)
  obtain ⟨-, rfl, -⟩ := record?_eq_some_iff.mp hv
  rw [hrec]
  exact hfalse

/-! ## The record of the start -/

namespace Subdivides

variable {g g' : Graph} {s t : Vertex} {image door : Vertex → Vertex} {v w : Vertex}

section Walks

variable (hsub : g.Subdivides g' s t image door)

include hsub

/-- An edge is an edge between the images, or two edges through the door. -/
theorem arc (hv : g.Reach t s v) (ha : g.Arc t v w) : TransGen (g'.Arc (image t)) (image v) (image w) := by
  have hw : g.Met s t w := .inl (.tail hv ha)
  have hdoor : g'.Arc (image t) (image v) (door w) := by
    refine ⟨fun heq => ha.1 (hsub.inj (.inl hv) (.inr rfl) heq), ?_⟩
    rw [hsub.successors hv ha.1]
    exact List.mem_map_of_mem ha.2
  by_cases hd : door w = image w
  · exact .single (hd ▸ hdoor)
  · obtain ⟨hdsucc, hdimage, -⟩ := hsub.door hw hd
    exact .tail (.single hdoor) ⟨(hdimage (.inr rfl)).symm, by simp [hdsucc]⟩

theorem reach (hv : g.Reach t s v) : g'.Reach (image t) (image s) (image v) := by
  induction hv with
  | refl => exact .refl
  | tail hu ha ih => exact ih.trans (hsub.arc hu ha).to_reflTransGen

theorem onLoop (hs : g.OnLoop t s) : g'.OnLoop (image t) (image s) := by
  obtain ⟨u, hu, ha⟩ := TransGen.tail'_iff.mp hs
  exact .trans_right (hsub.reach hu) (hsub.arc hu ha)

/-- A walk from the image of the start stays at images and doors. -/
theorem exists_of_reach {y : Vertex} (hy : g'.Reach (image t) (image s) y) :
    ∃ v, g.Reach t s v ∧ (y = image v ∨ y = door v) := by
  induction hy with
  | refl => exact ⟨s, .refl, .inl rfl⟩
  | @tail x y _ ha ih =>
    have himage : ∀ {v}, g.Reach t s v → x = image v → ∃ w, g.Reach t s w ∧ (y = image w ∨ y = door w) := by
      rintro v hv rfl
      have hvt : v ≠ t := fun heq => ha.1 (heq ▸ rfl)
      have hy := ha.2
      rw [hsub.successors hv hvt] at hy
      obtain ⟨w, hw, rfl⟩ := List.mem_map.mp hy
      exact ⟨w, .tail hv ⟨hvt, hw⟩, .inr rfl⟩
    obtain ⟨v, hv, hx | hx⟩ := ih
    · exact himage hv hx
    · by_cases hd : door v = image v
      · exact himage hv (hx.trans hd)
      · have hy := ha.2
        rw [hx, (hsub.door (.inl hv) hd).1, List.mem_singleton] at hy
        exact ⟨v, hv, .inl hy⟩

/-- The image of the final vertex is reached if the final vertex is. -/
theorem reach_final_iff : g'.Reach (image t) (image s) (image t) ↔ g.Reach t s t := by
  refine ⟨fun h => ?_, hsub.reach⟩
  obtain ⟨v, hv, heq⟩ := hsub.exists_of_reach h
  by_cases hvt : v = t
  · exact hvt ▸ hv
  · rcases heq with heq | heq
    · exact absurd (hsub.inj (.inr rfl) (.inl hv) heq).symm hvt
    · exact absurd heq (Survey.image_ne_door hsub (.inr rfl) (.inl hv) (Ne.symm hvt))

end Walks

/-- A door before the start may be left out if no walk comes back to the start. -/
theorem openStart (hsub : g.Subdivides g' s t image door) (hs : ¬g.OnLoop t s) :
    g.Subdivides g' s t image (Function.update door s (image s)) where
  lt := hsub.lt
  inj := hsub.inj
  successors {v} hv hvt := by
    rw [hsub.successors hv hvt]
    refine List.map_congr_left fun w hw => (Function.update_of_ne ?_ _ _).symm
    rintro rfl
    exact hs (TransGen.tail'_iff.mpr ⟨v, hv, hvt, hw⟩)
  door {w} hw hd := by
    have hws : w ≠ s := by
      rintro rfl
      exact hd (Function.update_self ..)
    rw [Function.update_of_ne hws] at hd ⊢
    obtain ⟨hdsucc, hdimage, hdinj⟩ := hsub.door hw hd
    refine ⟨hdsucc, hdimage, fun {v} hv heq => ?_⟩
    by_cases hvs : v = s
    · rw [hvs, Function.update_self] at heq
      exact absurd heq (hdimage (.inl .refl))
    · rw [Function.update_of_ne hvs] at heq
      exact hdinj hv heq

/-- **The record of a vertex** is that of its image if no door stands before the start. -/
theorem record_eq (hsub : g.Subdivides g' s t image door) (hs : s < g.size) (ht : t < g.size)
    (hstart : door s = image s) (hv : g.Met s t v) :
    (g'.search (image s) (image t)).records.getD (image v) .outside = (g.search s t).records.getD v .outside := by
  obtain ⟨S, hacts, hV, hp, -, hrec⟩ := g.search_act hs ht
  obtain ⟨S', hacts', -, hp', -, hrec'⟩ := g'.search_act (hsub.lt (.inl .refl)) (hsub.lt (.inr rfl))
  obtain ⟨T', hmirror, hT⟩ :=
    (Survey.initial_mirrors hsub hs ht hstart).acts hsub (Survey.initial_valid hs ht) hacts
  have hTp : T'.path = [] := by rw [hT.path, hp]; rfl
  have heq : S' = T' := Survey.eq_of_acts hacts' hmirror hp' hTp
  calc (g'.search (image s) (image t)).records.getD (image v) .outside
      = S'.record (image v) := hrec' _
    _ = S.record v := by rw [heq]; exact hT.records.atImage hv
    _ = (g.search s t).records.getD v .outside := (hrec _).symm

theorem startRecord_eq (hsub : g.Subdivides g' s t image door) (hs : s < g.size) (ht : t < g.size)
    (hstart : door s = image s) :
    (g'.search (image s) (image t)).startRecord = (g.search s t).startRecord :=
  hsub.record_eq hs ht hstart (.inl .refl)

/-- **The flags of the start** are those of its image, but for a door before the start that walks come back to: that
door is taken for a way around the final vertex. -/
theorem startRecord_flags (hsub : g.Subdivides g' s t image door) (hs : s < g.size) (ht : t < g.size) :
    (g'.search (image s) (image t)).startRecord.reaches = (g.search s t).startRecord.reaches ∧
      (g'.search (image s) (image t)).startRecord.loops = (g.search s t).startRecord.loops ∧
      ((g'.search (image s) (image t)).startRecord.avoids = true ↔
        (g.search s t).startRecord.avoids = true ∨ (door s ≠ image s ∧ g.OnLoop t s)) := by
  have hs' := hsub.lt (.inl .refl)
  have ht' := hsub.lt (.inr rfl)
  by_cases hd : door s = image s
  · rw [hsub.startRecord_eq hs ht hd]
    simp [hd]
  · by_cases hl : g.OnLoop t s
    · obtain ⟨hdsucc, hdimage, -⟩ := hsub.door (.inl .refl) hd
      obtain ⟨u, hu, ha⟩ := TransGen.tail'_iff.mp hl
      have hback : g'.Reach (image t) (image s) (door s) := by
        refine .tail (hsub.reach hu) ⟨fun heq => ha.1 (hsub.inj (.inl hu) (.inr rfl) heq), ?_⟩
        rw [hsub.successors hu ha.1]
        exact List.mem_map_of_mem ha.2
      refine ⟨?_, ?_, ?_⟩
      · rw [Bool.eq_iff_iff, search_reaches_iff hs' ht', search_reaches_iff hs ht, hsub.reach_final_iff]
      · rw [(search_loops_iff hs' ht').mpr ⟨_, .refl, hsub.onLoop hl⟩, (search_loops_iff hs ht).mpr ⟨_, .refl, hl⟩]
      · have := search_avoids_of_successors_eq_start hs' ht' hback hd (hdimage (.inr rfl)).symm hdsucc
        simp [this, hd, hl]
    · rw [(hsub.openStart hl).startRecord_eq hs ht (Function.update_self ..)]
      simp [hl]

end Subdivides

end Graph

end Waymark
