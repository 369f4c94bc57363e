import Waymark.Proofs.Search.Acts
import Waymark.Proofs.Walks

/-!
# What a search notes is true

The records of a search, compared with the walks of its graph. Both facts are kept by every act of the search:

* `Survey.Sound`: what was met can be reached, a final vertex that was seen to be reached is reached, and a loop that
  was noted is there.
* `Survey.Closed`: every successor of a finished vertex was met.
-/

namespace Waymark

open Relation

namespace Survey

variable {g : Graph} {start final : Vertex} {S T : Survey} {r : Vertex → Record} {u v w : Vertex} {ws : List Vertex}
  {f : Frame} {fs : List Frame}

/-! ## The active path is a walk -/

/-- An edge leads from every vertex of a path to the one above it. -/
def Descends (g : Graph) (final : Vertex) (fs : List Frame) : Prop :=
  fs.IsChain fun f p => g.Arc final p.vertex f.vertex

theorem Valid.descends (h : Valid g start final S) : Descends g final S.path :=
  h.linked.imp_of_mem_imp fun _ _ _ hp hhead => h.arc hp (List.mem_of_head? hhead)

/-- Every vertex of a path leads to the innermost one. -/
theorem Descends.reach_head (h : Descends g final (f :: fs)) (hu : u ∈ (f :: fs).map (·.vertex)) :
    g.Reach final u f.vertex := by
  induction fs generalizing f with
  | nil =>
    simp only [List.map_cons, List.map_nil, List.mem_singleton] at hu
    rw [hu]; exact .refl
  | cons p fs ih =>
    obtain ⟨harc, htail⟩ := List.isChain_cons_cons.mp h
    rcases List.mem_cons.mp hu with rfl | hu
    · exact .refl
    · exact .tail (ih htail hu) harc

/-- A vertex of a path leads to all of its span. -/
theorem Descends.reach_span (h : Descends g final fs) (hw : w ∈ fs.map (·.vertex)) (hu : u ∈ spanTo w fs) :
    g.Reach final w u := by
  induction fs with
  | nil => cases hw
  | cons f fs ih =>
    unfold spanTo at hu
    split at hu
    next => rw [List.mem_singleton.mp hu]; exact .refl
    next hne =>
      rcases List.mem_cons.mp hu with rfl | hu
      · exact h.reach_head hw
      · exact ih h.tail ((List.mem_cons.mp hw).resolve_left fun he => hne he.symm) hu

/-- An edge back to the active path closes a loop through all of its span. -/
theorem Valid.onLoop_of_span (h : Valid g start final ⟨r, ⟨v, w :: ws⟩ :: fs⟩) (hw : (r w).phase = .inProgress)
    (hu : u ∈ spanTo w (⟨v, w :: ws⟩ :: fs)) : g.OnLoop final u := by
  have hwu : g.Reach final w u := h.descends.reach_span ((h.inProgress w).mpr hw) hu
  have huv : g.Reach final u v := h.descends.reach_head (mem_of_mem_spanTo hu)
  have hvw : g.Arc final v w := h.arc List.mem_cons_self List.mem_cons_self
  exact TransGen.trans_left (TransGen.tail' huv hvw) hwu

/-! ## What is noted is true -/

/-- The record of `v` notes nothing that is not so. -/
structure Sound (g : Graph) (start final v : Vertex) (s : Record) : Prop where
  met : v < g.size → s.phase ≠ .unvisited → g.Reach final start v
  reaches : s.reaches = true → g.Reach final v final
  loops : s.loops = true → g.Loops final v

/-- A change of one record keeps what holds of all of them, if the new one has it. -/
theorem forall_update {P : Vertex → Record → Prop} {s : Record} (h : ∀ u, P u (r u)) (hs : P w s) (u : Vertex) :
    P u (Function.update r w s u) :=
  (Function.forall_update_iff r P).mpr ⟨hs, fun u _ => h u⟩ u

theorem sound_blank (g : Graph) (start final v : Vertex) : Sound g start final v (blank g v) := by
  unfold blank
  split
  next => exact ⟨fun _ hp => absurd rfl hp, nofun, nofun⟩
  next hv => exact ⟨fun h => absurd h hv, nofun, nofun⟩

theorem initial_sound (g : Graph) (start final v : Vertex) :
    Sound g start final v ((initial g start final).record v) := by
  unfold initial
  split
  next h =>
    subst h
    exact forall_update (sound_blank g start start) ⟨fun _ _ => .refl, fun _ => .refl, fun h => by cases h⟩ v
  next =>
    exact forall_update (sound_blank g start final)
      ⟨fun _ _ => .refl, fun h => (by cases h), fun h => (by cases h)⟩ v

/-- Every act notes only what is so. -/
theorem Act.sound (ha : Act g final S T) (hV : Valid g start final S) (h : ∀ v, Sound g start final v (S.record v)) :
    ∀ v, Sound g start final v (T.record v) := by
  cases ha with
  | @enter r v w ws fs hw hf =>
    have hv : g.Reach final start v := (h v).met (hV.lt_size (by simp [hV.phase_head])) (by simp [hV.phase_head])
    exact forall_update h ⟨fun _ _ => .tail hv (hV.arc List.mem_cons_self List.mem_cons_self), nofun, nofun⟩
  | @settle r v ws fs hw =>
    have hv : g.Reach final start v := (h v).met (hV.lt_size (by simp [hV.phase_head])) (by simp [hV.phase_head])
    refine forall_update h ⟨fun _ _ => .tail hv (hV.arc List.mem_cons_self List.mem_cons_self), fun _ => .refl, nofun⟩
  | @absorb r v w ws fs hw =>
    have hvw : g.Arc final v w := hV.arc List.mem_cons_self List.mem_cons_self
    refine forall_update h ⟨(h v).met, fun hr => ?_, fun hl => ?_⟩
    · rcases (Bool.or_eq_true ..).mp hr with hr | hr
      · exact (h v).reaches hr
      · exact .head hvw ((h w).reaches hr)
    · rcases (Bool.or_eq_true ..).mp hl with hl | hl
      · exact (h v).loops hl
      · exact ((h w).loops hl).head hvw
  | @back r v w ws fs hw =>
    intro u
    by_cases hu : u ∈ spanTo w (⟨v, w :: ws⟩ :: fs)
    · have hloop : g.Loops final u := ⟨u, .refl, hV.onLoop_of_span hw hu⟩
      simp only [markAll_of_mem hu]
      exact ⟨(h u).met, (h u).reaches, fun _ => hloop⟩
    · simp only [markAll_of_notMem hu]
      exact h u
  | @leave r v fs =>
    exact forall_update h ⟨fun hv _ => (h v).met hv (by simp [hV.phase_head]), (h v).reaches, (h v).loops⟩

/-! ## What acts leave alone -/

/-- A vertex that is finished keeps its record. -/
theorem Act.frozen (ha : Act g final S T) (hV : Valid g start final S) (hv : (S.record v).phase = .done) :
    T.record v = S.record v := by
  have hne : ∀ {u : Vertex}, (S.record u).phase ≠ .done → v ≠ u := by
    rintro u hu rfl
    exact hu hv
  cases ha with
  | enter hw => exact Function.update_of_ne (hne (by simp [hw])) _ _
  | settle hw => exact Function.update_of_ne (hne (by simp [hw])) _ _
  | absorb => exact Function.update_of_ne (hne (by simp [hV.phase_head])) _ _
  | back =>
    refine markAll_of_notMem fun hm => ?_
    have := (hV.inProgress v).mp (mem_of_mem_spanTo hm)
    rw [hv] at this; cases this
  | leave => exact Function.update_of_ne (hne (by simp [hV.phase_head])) _ _

/-- A vertex that was met stays met. -/
theorem Act.met (ha : Act g final S T) (hv : (S.record v).phase ≠ .unvisited) : (T.record v).phase ≠ .unvisited := by
  cases ha with
  | @enter r _ w _ _ hw =>
    have hne : v ≠ w := by rintro rfl; exact hv hw
    simpa [Function.update_of_ne hne] using hv
  | @settle r _ _ _ hw =>
    have hne : v ≠ final := by rintro rfl; exact hv hw
    simpa [Function.update_of_ne hne] using hv
  | absorb => simpa using hv
  | back => simpa using hv
  | @leave r u =>
    by_cases hu : v = u
    · subst hu; simp
    · simpa [Function.update_of_ne hu] using hv

/-- A vertex is finished by being settled, and is due then, or by being left. -/
theorem Act.done_cases (ha : Act g final S T) (hv : (T.record v).phase = .done) :
    (S.record v).phase = .done ∨ (v = final ∧ ∃ u ws fs, T.path = ⟨u, final :: ws⟩ :: fs) ∨
      ∃ fs, S.path = ⟨v, []⟩ :: fs ∧ T = ⟨Function.update S.record v (S.record v).finish, fs⟩ := by
  cases ha with
  | @enter r _ w =>
    by_cases hu : v = w
    · subst hu; simp [Record.entered] at hv
    · exact .inl (by simpa [Function.update_of_ne hu] using hv)
  | settle =>
    by_cases hu : v = final
    · exact .inr (.inl ⟨hu, _, _, _, rfl⟩)
    · exact .inl (by simpa [Function.update_of_ne hu] using hv)
  | absorb => exact .inl (by simpa using hv)
  | back => exact .inl (by simpa using hv)
  | @leave r u fs =>
    by_cases hu : v = u
    · subst hu; exact .inr (.inr ⟨fs, rfl, rfl⟩)
    · exact .inl (by simpa [Function.update_of_ne hu] using hv)

/-! ## What was met is followed up -/

/-- Every successor of a vertex was met, or is still due to it. -/
structure Closed (g : Graph) (final : Vertex) (S : Survey) : Prop where
  active : ∀ f ∈ S.path, ∀ w ∈ g.successors f.vertex, w ∈ f.pending ∨ (S.record w).phase ≠ .unvisited
  done : ∀ v, v < g.size → v ≠ final → (S.record v).phase = .done → ∀ w ∈ g.successors v,
    (S.record w).phase ≠ .unvisited

theorem initial_closed (g : Graph) (start final : Vertex) : Closed g final (initial g start final) := by
  have hblank : ∀ s v, v < g.size → v ≠ start → (Function.update (blank g) start s v).phase ≠ .done :=
    fun s v hv hne => by simp [Function.update_of_ne hne, blank, hv, Record.unvisited]
  unfold initial
  split
  next h =>
    subst h
    exact ⟨by simp, fun v hv hne hd => absurd hd (hblank _ v hv hne)⟩
  next h =>
    refine ⟨fun f hf w hw => ?_, fun v hv hne hd => ?_⟩
    · rw [List.mem_singleton.mp hf] at hw ⊢
      exact .inl hw
    by_cases hs : v = start
    · subst hs; simp [Record.entered] at hd
    · exact absurd hd (hblank _ v hv hs)

/-- Looking at a successor that was met keeps track of the others. -/
theorem Closed.consume {r' : Vertex → Record} (h : Closed g final ⟨r, ⟨v, w :: ws⟩ :: fs⟩)
    (hp : ∀ u, (r' u).phase = (r u).phase) (hw : (r w).phase ≠ .unvisited) :
    Closed g final ⟨r', ⟨v, ws⟩ :: fs⟩ := by
  refine ⟨fun f hf u hu => ?_, fun u hu hne hd x hx => ?_⟩
  · simp only [hp]
    rcases List.mem_cons.mp hf with rfl | hf
    · rcases h.active ⟨v, w :: ws⟩ List.mem_cons_self u hu with hm | hm
      · rcases List.mem_cons.mp hm with rfl | hm
        · exact .inr hw
        · exact .inl hm
      · exact .inr hm
    · exact h.active f (List.mem_cons_of_mem _ hf) u hu
  · simp only [hp] at hd ⊢
    exact h.done u hu hne hd x hx

theorem Act.closed (ha : Act g final S T) (hV : Valid g start final S) (h : Closed g final S) : Closed g final T := by
  -- a vertex that is finished now was finished before, or nothing is due to it any more
  have hdone : ∀ v, v < g.size → v ≠ final → (T.record v).phase = .done → ∀ w ∈ g.successors v,
      (T.record w).phase ≠ .unvisited := fun v hv hne hd w hw => by
    rcases ha.done_cases hd with hd | ⟨hf, _⟩ | ⟨fs, hp, rfl⟩
    · exact ha.met (h.done v hv hne hd w hw)
    · exact absurd hf hne
    · refine ha.met ((h.active ⟨v, []⟩ ?_ w hw).resolve_left (by simp))
      rw [hp]; exact List.mem_cons_self
  refine ⟨?_, hdone⟩
  have hold : ∀ f ∈ S.path, ∀ w ∈ g.successors f.vertex, w ∈ f.pending ∨ (T.record w).phase ≠ .unvisited :=
    fun f hf w hw => (h.active f hf w hw).imp_right ha.met
  cases ha with
  | enter =>
    intro f hf w hw
    rcases List.mem_cons.mp hf with rfl | hf
    · exact .inl hw
    · exact hold f hf w hw
  | settle => exact hold
  | absorb hw =>
    exact (h.consume (fun u => phase_update_absorb _ _ _ _) (by simp [hw])).active
  | back hw => exact (h.consume (fun u => phase_markAll _ _ _) (by simp [hw])).active
  | leave => exact fun f hf => hold f (List.mem_cons_of_mem _ hf)

end Survey

end Waymark
