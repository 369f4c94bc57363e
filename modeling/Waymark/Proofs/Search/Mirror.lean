import Mathlib.Logic.Relator
import Waymark.Proofs.Search.Acts
import Waymark.Proofs.Walks

/-!
# Searches in the mirror

A graph may hold a picture of the part of another one that a search meets (`Graph.Subdivides`): every vertex has its
image, and edges to it lead to its door, which is the image itself or a new vertex with a single edge to the image. A
search in the one graph is mirrored by a search in the other (`Survey.Mirrors.acts`): what takes one act here takes up
to four there, for a door is entered before its image and finished after it, and passes on what its image found out.
-/

namespace Waymark

open Relation

/-! ## Acts are determined -/

namespace Survey

variable {g : Graph} {start final : Vertex} {S T T' : Survey}

/-- What a search does next depends on where it is. -/
theorem rightUnique_act (g : Graph) (final : Vertex) : Relator.RightUnique (Act g final) := by
  intro S T T' h h'
  cases h <;> cases h' <;> simp_all

/-- A search that is over does nothing. -/
theorem not_act_of_path_eq_nil (hp : S.path = []) : ¬Act g final S T := by
  intro h
  cases h <;> cases hp

/-- All sequences of acts to an empty path end in the same state. -/
theorem eq_of_acts (hT : ReflTransGen (Act g final) S T) (hT' : ReflTransGen (Act g final) S T') (hp : T.path = [])
    (hp' : T'.path = []) : T = T' := by
  rcases ReflTransGen.total_of_right_unique (rightUnique_act g final) hT hT' with h | h
  · exact ((reflTransGen_iff_eq fun _ => not_act_of_path_eq_nil hp).mp h).symm
  · exact (reflTransGen_iff_eq fun _ => not_act_of_path_eq_nil hp').mp h

end Survey

/-! ## Pictures of a graph -/

namespace Graph

/-- The vertices that a search may meet. -/
def Met (g : Graph) (s t v : Vertex) : Prop := g.Reach t s v ∨ v = t

/-- `g'` holds a picture of what a search from `s` for `t` meets in `g`: `image v` stands for the vertex `v`, and edges
to `v` lead to `door v`. -/
structure Subdivides (g g' : Graph) (s t : Vertex) (image door : Vertex → Vertex) : Prop where
  lt : ∀ {v}, g.Met s t v → image v < g'.size
  inj : ∀ {v w}, g.Met s t v → g.Met s t w → image v = image w → v = w
  successors : ∀ {v}, g.Reach t s v → v ≠ t → g'.successors (image v) = (g.successors v).map door
  /-- A door that is not the image is a vertex of its own, with one edge. -/
  door : ∀ {w}, g.Met s t w → door w ≠ image w →
    g'.successors (door w) = [image w] ∧ (∀ {v}, g.Met s t v → image v ≠ door w) ∧
      ∀ {v}, g.Met s t v → door v = door w → v = w

end Graph

/-- The record of a vertex whose only edge leads to one with the record `r`. -/
def Record.relay (r : Record) : Record := ⟨r.reaches, if r.reaches then r.avoids else true, r.loops, r.phase⟩

/-- It makes no difference whether a record is absorbed from its vertex or from the door before it. -/
theorem Record.absorb_relay (r s : Record) : r.absorb s.relay = r.absorb s := by
  cases hs : s.reaches <;> simp [absorb, relay, hs]

/-- What the record `r'` of a door says while that of its image is `r`: as long as the image is in progress nothing but
that a loop was noted at both, and then the same. -/
structure Relays (r r' : Record) : Prop where
  phase : r'.phase = r.phase
  inProgress : r.phase = .inProgress → r'.reaches = false ∧ r'.avoids = false ∧ (r'.loops = true → r.loops = true)
  done : r.phase = .done → r' = r.relay

/-- Leaving the image and absorbing it makes the door relay it. -/
theorem Relays.leave {r r' : Record} (h : Relays r r') (hr : r.phase = .inProgress) :
    (r'.absorb r.finish).finish = r.finish.relay := by
  obtain ⟨hreaches, havoids, hloops⟩ := h.inProgress hr
  have hor : (r'.loops || r.loops) = r.loops := by
    cases hl : r'.loops with
    | false => rfl
    | true => rw [hloops hl]; rfl
  simp [Record.absorb, Record.finish, Record.relay, hreaches, havoids, hor]

/-- What is noted at the image alone leaves the door as it is. -/
theorem Relays.of_inProgress {r r₂ r' : Record} (h : Relays r r') (hr : r.phase = .inProgress)
    (hr₂ : r₂.phase = .inProgress) (hloops : r.loops = true → r₂.loops = true) : Relays r₂ r' where
  phase := by rw [h.phase, hr, hr₂]
  inProgress _ := by
    obtain ⟨hreaches, havoids, himp⟩ := h.inProgress hr
    exact ⟨hreaches, havoids, fun hl => hloops (himp hl)⟩
  done hd := by rw [hr₂] at hd; cases hd

/-- A loop is noted at the image and at the door. -/
theorem Relays.markLoop {r r' : Record} (h : Relays r r') (hr : r.phase = .inProgress) :
    Relays r.markLoop r'.markLoop where
  phase := h.phase
  inProgress _ := by
    obtain ⟨hreaches, havoids, -⟩ := h.inProgress hr
    exact ⟨hreaches, havoids, fun _ => rfl⟩
  done hd := by rw [Record.phase_markLoop, hr] at hd; cases hd

/-! ## Mirrored states -/

namespace Survey

section Mirror

variable {g g' : Graph} {s t : Vertex} {image door : Vertex → Vertex} {r r' r'' : Vertex → Record} {v w : Vertex}
  {x : Record}

/-- The images of a path, each with the door before it if that is another vertex. -/
def mirror (image door : Vertex → Vertex) : List Frame → List Frame
  | [] => []
  | f :: fs => ⟨image f.vertex, f.pending.map door⟩ ::
      if door f.vertex = image f.vertex then mirror image door fs
      else ⟨door f.vertex, [image f.vertex]⟩ :: mirror image door fs

/-- The records `r'` of images and doors agree with the records `r`. -/
structure Echoes (g : Graph) (s t : Vertex) (image door : Vertex → Vertex) (r r' : Vertex → Record) : Prop where
  atImage : ∀ {v}, g.Met s t v → r' (image v) = r v
  atDoor : ∀ {w}, g.Met s t w → door w ≠ image w → Relays (r w) (r' (door w))

/-- The state `S'` of a search for the image of `t` is that of a search for `t` in the mirror. -/
structure Mirrors (g : Graph) (s t : Vertex) (image door : Vertex → Vertex) (S S' : Survey) : Prop where
  path : S'.path = mirror image door S.path
  reach : ∀ f ∈ S.path, g.Reach t s f.vertex
  records : Echoes g s t image door S.record S'.record

/-- The phase of a door is that of its image. -/
theorem Echoes.phase_door (h : Echoes g s t image door r r') (hw : g.Met s t w) :
    (r' (door w)).phase = (r w).phase := by
  by_cases hd : door w = image w
  · rw [hd, h.atImage hw]
  · exact (h.atDoor hw hd).phase

/-- A finished door is absorbed like its image. -/
theorem Echoes.absorb_door (h : Echoes g s t image door r r') (hw : g.Met s t w) (hdone : (r w).phase = .done) :
    x.absorb (r' (door w)) = x.absorb (r w) := by
  by_cases hd : door w = image w
  · rw [hd, h.atImage hw]
  · rw [(h.atDoor hw hd).done hdone, Record.absorb_relay]

end Mirror

section Picture

variable {g g' : Graph} {s t : Vertex} {image door : Vertex → Vertex} {r r' r'' : Vertex → Record} {v w : Vertex}
  {x : Record} (hsub : g.Subdivides g' s t image door)

include hsub

/-- An image is the door of no other vertex. -/
theorem image_ne_door (hv : g.Met s t v) (hw : g.Met s t w) (hvw : v ≠ w) : image v ≠ door w := by
  by_cases hd : door w = image w
  · rw [hd]
    exact fun heq => hvw (hsub.inj hv hw heq)
  · exact (hsub.door hw hd).2.1 hv

/-- A change at one vertex, at its image and at its door. -/
theorem Echoes.set (h : Echoes g s t image door r r') (hw : g.Met s t w) (himage : r'' (image w) = x)
    (hdoor : door w ≠ image w → Relays x (r'' (door w))) (hrest : ∀ u, u ≠ image w → u ≠ door w → r'' u = r' u) :
    Echoes g s t image door (Function.update r w x) r'' where
  atImage {v} hv := by
    by_cases hvw : v = w
    · rw [hvw, himage, Function.update_self]
    · rw [hrest _ (fun heq => hvw (hsub.inj hv hw heq)) (image_ne_door hsub hv hw hvw), h.atImage hv,
        Function.update_of_ne hvw]
  atDoor {v} hv hd := by
    by_cases hvw : v = w
    · rw [hvw, Function.update_self]
      exact hdoor (hvw ▸ hd)
    · have hne : door v ≠ door w := fun heq => hvw ((hsub.door hv hd).2.2 hw heq.symm).symm
      rw [hrest _ ((hsub.door hv hd).2.1 hw).symm hne, Function.update_of_ne hvw]
      exact h.atDoor hv hd

/-- The image of a vertex, and the door before it if that is another vertex. -/
def doors (image door : Vertex → Vertex) (v : Vertex) : List Vertex :=
  if door v = image v then [image v] else [image v, door v]

/-- The span back to a door holds the images and the doors of the span back to its vertex. -/
theorem spanTo_mirror {fs : List Frame} (hfs : ∀ f ∈ fs, g.Reach t s f.vertex) (hw : g.Met s t w) :
    spanTo (door w) (mirror image door fs) = (spanTo w fs).flatMap (doors image door) := by
  induction fs with
  | nil => rfl
  | cons f fs ih =>
    rw [List.forall_mem_cons] at hfs
    have hf : g.Met s t f.vertex := .inl hfs.1
    by_cases hfw : f.vertex = w
    · by_cases hd : door w = image w
      · simp [mirror, spanTo, doors, hfw, hd]
      · simp [mirror, spanTo, doors, hfw, hd, Ne.symm hd]
    · have himage : image f.vertex ≠ door w := image_ne_door hsub hf hw hfw
      by_cases hd : door f.vertex = image f.vertex
      · simp [mirror, spanTo, doors, hfw, hd, himage, ih hfs.2]
      · have hdoor : door f.vertex ≠ door w := fun heq => hfw ((hsub.door hf hd).2.2 hw heq.symm).symm
        simp [mirror, spanTo, doors, hfw, hd, himage, hdoor, ih hfs.2]

/-- The image of a vertex, or its door, is among those of some vertices only if the vertex is one of them. -/
theorem mem_flatMap_doors {vs : List Vertex} (hvs : ∀ u ∈ vs, g.Met s t u) (hv : g.Met s t v) :
    (image v ∈ vs.flatMap (doors image door) ↔ v ∈ vs) ∧
      (door v ≠ image v → (door v ∈ vs.flatMap (doors image door) ↔ v ∈ vs)) := by
  have hmem : ∀ {u y}, y ∈ doors image door u ↔ y = image u ∨ y = door u := by
    intro u y
    unfold doors
    split
    next hd => simp [hd]
    next hd => simp
  simp only [List.mem_flatMap, hmem]
  refine ⟨⟨?_, fun h => ⟨v, h, .inl rfl⟩⟩, fun hd => ⟨?_, fun h => ⟨v, h, .inr rfl⟩⟩⟩
  · rintro ⟨u, hu, heq⟩
    by_contra hne
    have hvu : v ≠ u := fun h => hne (h ▸ hu)
    exact heq.elim (fun heq => hvu (hsub.inj hv (hvs u hu) heq)) (image_ne_door hsub hv (hvs u hu) hvu)
  · rintro ⟨u, hu, heq⟩
    rcases heq with heq | heq
    · exact absurd heq.symm ((hsub.door hv hd).2.1 (hvs u hu))
    · exact (hsub.door hv hd).2.2 (hvs u hu) heq.symm ▸ hu

/-- Marking a loop marks the images and the doors. -/
theorem Echoes.markAll (h : Echoes g s t image door r r') {vs : List Vertex} (hvs : ∀ u ∈ vs, g.Met s t u)
    (hphase : ∀ u ∈ vs, (r u).phase = .inProgress) :
    Echoes g s t image door (markAll r vs) (markAll r' (vs.flatMap (doors image door))) where
  atImage {v} hv := by
    have hiff := (mem_flatMap_doors hsub hvs hv).1
    by_cases hm : v ∈ vs
    · rw [markAll_of_mem hm, markAll_of_mem (hiff.mpr hm), h.atImage hv]
    · rw [markAll_of_notMem hm, markAll_of_notMem (hiff.not.mpr hm), h.atImage hv]
  atDoor {v} hv hd := by
    have hiff := (mem_flatMap_doors hsub hvs hv).2 hd
    by_cases hm : v ∈ vs
    · rw [markAll_of_mem hm, markAll_of_mem (hiff.mpr hm)]
      exact (h.atDoor hv hd).markLoop (hphase v hm)
    · rw [markAll_of_notMem hm, markAll_of_notMem (hiff.not.mpr hm)]
      exact h.atDoor hv hd

/-! ### Acts in the mirror -/

variable {u : Vertex} {us : List Vertex} {fs gs : List Frame}

theorem isSink_image (hw : g.Reach t s w) (hwt : w ≠ t) : g'.isSink (image w) = g.isSink w := by
  simp [Graph.isSink, hsub.successors hw hwt]

/-- Visiting a vertex is visiting its door, if that is another one, and then its image. -/
theorem Echoes.enter (h : Echoes g s t image door r r') (hw : g.Reach t s w) (hphase : (r w).phase = .unvisited)
    (hwt : w ≠ t) :
    ∃ r'', ReflTransGen (Act g' (image t)) ⟨r', ⟨u, door w :: us⟩ :: gs⟩
        ⟨r'', ⟨image w, (g.successors w).map door⟩ :: if door w = image w then ⟨u, door w :: us⟩ :: gs
          else ⟨door w, [image w]⟩ :: ⟨u, door w :: us⟩ :: gs⟩ ∧
      Echoes g s t image door (Function.update r w (.entered (g.isSink w))) r'' := by
  have hne : image w ≠ image t := fun heq => hwt (hsub.inj (.inl hw) (.inr rfl) heq)
  have himage : (r' (image w)).phase = .unvisited := by rw [h.atImage (.inl hw), hphase]
  rw [← hsub.successors hw hwt]
  by_cases hd : door w = image w
  · refine ⟨Function.update r' (image w) (.entered (g'.isSink (image w))), .single ?_, ?_⟩
    · rw [if_pos hd, hd]
      exact .enter himage hne
    · refine h.set hsub (.inl hw) ?_ (fun hdoor => absurd hd hdoor) fun y hy _ => Function.update_of_ne hy _ _
      rw [Function.update_self, isSink_image hsub hw hwt]
  · obtain ⟨hdsucc, hdimage, -⟩ := hsub.door (.inl hw) hd
    have hdoor : (r' (door w)).phase = .unvisited := by rw [h.phase_door (.inl hw), hphase]
    have hdsink : g'.isSink (door w) = false := by simp [Graph.isSink, hdsucc]
    refine ⟨Function.update (Function.update r' (door w) (.entered (g'.isSink (door w)))) (image w)
      (.entered (g'.isSink (image w))), ?_, ?_⟩
    · refine .tail (.single (.enter hdoor (hdimage (.inr rfl)).symm)) ?_
      rw [if_neg hd, hdsucc]
      refine .enter ?_ hne
      rw [Function.update_of_ne (Ne.symm hd)]
      exact himage
    · refine h.set hsub (.inl hw) ?_ (fun _ => ?_) fun y hy hy' => ?_
      · rw [Function.update_self, isSink_image hsub hw hwt]
      · rw [Function.update_of_ne hd, Function.update_self, hdsink]
        exact ⟨rfl, fun _ => ⟨rfl, rfl, by simp [Record.entered]⟩, by simp [Record.entered]⟩
      · rw [Function.update_of_ne hy, Function.update_of_ne hy']

/-- Meeting the final vertex is meeting its image, through its door if that is another vertex. -/
theorem Echoes.settle (h : Echoes g s t image door r r') (hphase : (r t).phase = .unvisited) :
    ∃ r'', ReflTransGen (Act g' (image t)) ⟨r', ⟨u, door t :: us⟩ :: gs⟩ ⟨r'', ⟨u, door t :: us⟩ :: gs⟩ ∧
      Echoes g s t image door (Function.update r t .final) r'' := by
  have himage : (r' (image t)).phase = .unvisited := by rw [h.atImage (.inr rfl), hphase]
  by_cases hd : door t = image t
  · refine ⟨Function.update r' (image t) .final, .single ?_, ?_⟩
    · rw [hd]
      exact .settle himage
    · exact h.set hsub (.inr rfl) (Function.update_self ..) (fun hdoor => absurd hd hdoor)
        fun y hy _ => Function.update_of_ne hy _ _
  · obtain ⟨hdsucc, hdimage, -⟩ := hsub.door (.inr rfl) hd
    have hdoor : (r' (door t)).phase = .unvisited := by rw [h.phase_door (.inr rfl), hphase]
    have hdsink : g'.isSink (door t) = false := by simp [Graph.isSink, hdsucc]
    -- the door is entered, meets the final vertex, absorbs it and is left
    let r₁ := Function.update r' (door t) (.entered (g'.isSink (door t)))
    let r₂ := Function.update r₁ (image t) .final
    let r₃ := Function.update r₂ (door t) ((r₂ (door t)).absorb (r₂ (image t)))
    have h₁ : Act g' (image t) ⟨r', ⟨u, door t :: us⟩ :: gs⟩ ⟨r₁, ⟨door t, [image t]⟩ :: ⟨u, door t :: us⟩ :: gs⟩ := by
      rw [← hdsucc]
      exact .enter hdoor (hdimage (.inr rfl)).symm
    have h₂ : Act g' (image t) ⟨r₁, ⟨door t, [image t]⟩ :: ⟨u, door t :: us⟩ :: gs⟩
        ⟨r₂, ⟨door t, [image t]⟩ :: ⟨u, door t :: us⟩ :: gs⟩ := by
      refine .settle ?_
      simp only [r₁, Function.update_of_ne (Ne.symm hd)]
      exact himage
    have h₃ : Act g' (image t) ⟨r₂, ⟨door t, [image t]⟩ :: ⟨u, door t :: us⟩ :: gs⟩
        ⟨r₃, ⟨door t, []⟩ :: ⟨u, door t :: us⟩ :: gs⟩ :=
      .absorb (by simp [r₂, Record.final])
    refine ⟨Function.update r₃ (door t) (r₃ (door t)).finish, .tail (.tail (.tail (.single h₁) h₂) h₃) .leave, ?_⟩
    refine h.set hsub (.inr rfl) ?_ (fun _ => ?_) fun y hy hy' => ?_
    · simp [r₃, r₂, Function.update_of_ne (Ne.symm hd)]
    · simp only [Function.update_self, r₃, r₂, r₁, Function.update_of_ne hd, hdsink]
      exact ⟨rfl, by simp [Record.final], fun _ => rfl⟩
    · simp [r₃, r₂, r₁, Function.update_of_ne hy, Function.update_of_ne hy']

/-- Absorbing a finished vertex is absorbing its door. -/
theorem Echoes.absorb (h : Echoes g s t image door r r') (hv : g.Reach t s v) (hvphase : (r v).phase = .inProgress)
    (hw : g.Met s t w) (hphase : (r w).phase = .done) :
    ∃ r'', Act g' (image t) ⟨r', ⟨image v, door w :: us⟩ :: gs⟩ ⟨r'', ⟨image v, us⟩ :: gs⟩ ∧
      Echoes g s t image door (Function.update r v ((r v).absorb (r w))) r'' := by
  refine ⟨_, .absorb (by rw [h.phase_door hw, hphase]), ?_⟩
  refine h.set hsub (.inl hv) ?_ (fun hd => ?_) fun y hy _ => Function.update_of_ne hy _ _
  · rw [Function.update_self, h.absorb_door hw hphase, h.atImage (.inl hv)]
  · rw [Function.update_of_ne hd]
    refine (h.atDoor (.inl hv) hd).of_inProgress hvphase hvphase fun hl => ?_
    simp [Record.absorb, hl]

/-- Leaving a vertex is leaving its image, and then its door if that is another vertex. -/
theorem Echoes.leave (h : Echoes g s t image door r r') (hv : g.Reach t s v) (hvphase : (r v).phase = .inProgress) :
    ∃ r'', ReflTransGen (Act g' (image t))
        ⟨r', ⟨image v, []⟩ :: if door v = image v then gs else ⟨door v, [image v]⟩ :: gs⟩ ⟨r'', gs⟩ ∧
      Echoes g s t image door (Function.update r v (r v).finish) r'' := by
  have himage := h.atImage (.inl hv)
  by_cases hd : door v = image v
  · refine ⟨Function.update r' (image v) (r' (image v)).finish, ?_, ?_⟩
    · rw [if_pos hd]
      exact .single .leave
    · exact h.set hsub (.inl hv) (by rw [Function.update_self, himage]) (fun hdoor => absurd hd hdoor)
        fun y hy _ => Function.update_of_ne hy _ _
  · let r₁ := Function.update r' (image v) (r' (image v)).finish
    let r₂ := Function.update r₁ (door v) ((r₁ (door v)).absorb (r₁ (image v)))
    have h₁ : Act g' (image t) ⟨r', ⟨image v, []⟩ :: ⟨door v, [image v]⟩ :: gs⟩ ⟨r₁, ⟨door v, [image v]⟩ :: gs⟩ :=
      .leave
    have h₂ : Act g' (image t) ⟨r₁, ⟨door v, [image v]⟩ :: gs⟩ ⟨r₂, ⟨door v, []⟩ :: gs⟩ := .absorb (by simp [r₁])
    refine ⟨Function.update r₂ (door v) (r₂ (door v)).finish, ?_, ?_⟩
    · rw [if_neg hd]
      exact .tail (.tail (.single h₁) h₂) .leave
    · refine h.set hsub (.inl hv) ?_ (fun _ => ?_) fun y hy hy' => ?_
      · simp [r₂, r₁, Function.update_of_ne (Ne.symm hd), himage]
      · have hrelay := (h.atDoor (.inl hv) hd).leave hvphase
        simp only [Function.update_self, r₂, r₁, Function.update_of_ne hd, himage, hrelay]
        exact ⟨rfl, by simp, fun _ => rfl⟩
      · simp [r₂, r₁, Function.update_of_ne hy, Function.update_of_ne hy']

/-- **An act in the mirror** is a sequence of acts. -/
theorem Mirrors.act {S S' T : Survey} (h : Mirrors g s t image door S S') (hV : Valid g s t S) (ha : Act g t S T) :
    ∃ T', ReflTransGen (Act g' (image t)) S' T' ∧ Mirrors g s t image door T T' := by
  obtain ⟨r', path'⟩ := S'
  obtain ⟨hpath, hreach, hrec⟩ := h
  simp only at hpath hrec
  subst hpath
  have hdue : ∀ {f w}, f ∈ S.path → w ∈ f.pending → g.Reach t s w := fun hf hw => .tail (hreach _ hf) (hV.arc hf hw)
  cases ha with
  | @enter r v w ws fs hphase hwt =>
    have hw : g.Reach t s w := hdue List.mem_cons_self List.mem_cons_self
    obtain ⟨r'', hacts, hrec'⟩ := hrec.enter hsub hw hphase hwt
    exact ⟨_, hacts, rfl, List.forall_mem_cons.mpr ⟨hw, hreach⟩, hrec'⟩
  | @settle r v ws fs hphase =>
    obtain ⟨r'', hacts, hrec'⟩ := hrec.settle hsub hphase
    exact ⟨_, hacts, rfl, hreach, hrec'⟩
  | @absorb r v w ws fs hphase =>
    have hw : g.Reach t s w := hdue List.mem_cons_self List.mem_cons_self
    rw [List.forall_mem_cons] at hreach
    obtain ⟨r'', hact, hrec'⟩ := hrec.absorb hsub hreach.1 hV.phase_head (.inl hw) hphase
    exact ⟨_, .single hact, rfl, List.forall_mem_cons.mpr hreach, hrec'⟩
  | @back r v w ws fs hphase =>
    have hw : g.Met s t w := .inl (hdue List.mem_cons_self List.mem_cons_self)
    have hspan : ∀ u ∈ spanTo w (⟨v, w :: ws⟩ :: fs), (r u).phase = .inProgress := fun u hu =>
      (hV.inProgress u).mp (mem_of_mem_spanTo hu)
    have hmet : ∀ u ∈ spanTo w (⟨v, w :: ws⟩ :: fs), g.Met s t u := fun u hu => by
      obtain ⟨f, hf, rfl⟩ := List.mem_map.mp (mem_of_mem_spanTo hu)
      exact .inl (hreach f hf)
    refine ⟨⟨_, mirror image door (⟨v, ws⟩ :: fs)⟩, .single (.back (by rw [hrec.phase_door hw, hphase])), rfl, ?_, ?_⟩
    · rw [List.forall_mem_cons] at hreach ⊢
      exact hreach
    · have hspan' := spanTo_mirror hsub hreach hw
      simp only [mirror, List.map_cons] at hspan'
      rw [hspan']
      exact hrec.markAll hsub hmet hspan
  | @leave r v fs =>
    rw [List.forall_mem_cons] at hreach
    obtain ⟨r'', hacts, hrec'⟩ := hrec.leave hsub hreach.1 hV.phase_head
    exact ⟨_, hacts, rfl, hreach.2, hrec'⟩

/-- **Acts in the mirror** go on as long as there are acts. -/
theorem Mirrors.acts {S S' T : Survey} (h : Mirrors g s t image door S S') (hV : Valid g s t S)
    (ha : ReflTransGen (Act g t) S T) :
    ∃ T', ReflTransGen (Act g' (image t)) S' T' ∧ Mirrors g s t image door T T' := by
  induction ha with
  | refl => exact ⟨S', .refl, h⟩
  | tail hacts hact ih =>
    obtain ⟨U', hacts', hU⟩ := ih
    obtain ⟨T', hact', hT⟩ := hU.act hsub (hV.of_acts hacts) hact
    exact ⟨T', hacts'.trans hact', hT⟩

/-! ### Where a search starts -/

theorem blank_echoes (hs : s < g.size) (ht : t < g.size) : Echoes g s t image door (blank g) (blank g') where
  atImage {v} hv := by
    have hlt : v < g.size := hv.elim (Graph.lt_size_of_reach hs) fun heq => heq ▸ ht
    simp [blank, hlt, hsub.lt hv]
  atDoor {w} hw hd := by
    have hlt : w < g.size := hw.elim (Graph.lt_size_of_reach hs) fun heq => heq ▸ ht
    have hdoor : door w < g'.size := by
      refine Nat.lt_of_not_le fun hle => ?_
      have hdsucc := (hsub.door hw hd).1
      rw [Graph.successors_of_size_le hle] at hdsucc
      cases hdsucc
    simp only [blank, hlt, hdoor, if_true]
    exact ⟨rfl, by simp [Record.unvisited], by simp [Record.unvisited]⟩

/-- A search starts in the mirror if no door stands before its start. -/
theorem initial_mirrors (hs : s < g.size) (ht : t < g.size) (hstart : door s = image s) :
    Mirrors g s t image door (initial g s t) (initial g' (image s) (image t)) := by
  have hset : ∀ x, Echoes g s t image door (Function.update (blank g) s x) (Function.update (blank g') (image s) x) :=
    fun x => (blank_echoes hsub hs ht).set hsub (.inl .refl) (Function.update_self ..) (fun hd => absurd hstart hd)
      fun y hy _ => Function.update_of_ne hy _ _
  unfold initial
  by_cases hst : s = t
  · rw [if_pos hst, if_pos (hst ▸ rfl)]
    exact ⟨rfl, by simp, hset _⟩
  · have hne : image s ≠ image t := fun heq => hst (hsub.inj (.inl .refl) (.inr rfl) heq)
    rw [if_neg hst, if_neg hne, isSink_image hsub .refl hst, hsub.successors .refl hst]
    refine ⟨by simp [mirror, hstart], ?_, hset _⟩
    exact List.forall_mem_singleton.mpr .refl

end Picture

end Survey

end Waymark
