import Waymark.Proofs.Search.Clean

/-!
# What a search finds out

What was noted once comes down the active path to the start (`Survey.Carried`). With what is known of all records
(`Survey.Sound`, `Survey.Closed`, `Survey.Clean`) this gives `Graph.search_reaches_iff`, `Graph.search_loops_iff` and
`Graph.search_avoids_iff` for the start. The last one is not about walks alone: a vertex that was finished before it was
seen to reach the final vertex counts as well. The loops ahead are known at every vertex that was met, not only at the
start (`Graph.loops_iff_of_record?`).
-/

namespace Waymark

open Relation

namespace Survey

variable {g : Graph} {start final : Vertex} {S T : Survey} {r : Vertex → Record} {u v w : Vertex} {ws : List Vertex}
  {f : Frame} {fs : List Frame}

/-! ## What comes down to the start -/

/-- Something with `K` was noted on the active path, or is noted with `Q` at a vertex that is about to be absorbed, or
has come down to the start. -/
def Carried (Q K : Record → Prop) (start : Vertex) (S : Survey) : Prop :=
  (∃ f ∈ S.path, K (S.record f.vertex)) ∨
    (∃ v w ws fs, S.path = ⟨v, w :: ws⟩ :: fs ∧ (S.record w).phase = .done ∧ Q (S.record w)) ∨
      (S.path = [] ∧ K (S.record start))

/-- `K` is never taken back, a record with `K` has `Q` once it is finished, and absorbing `Q` gives `K`. -/
structure Flows (Q K : Record → Prop) : Prop where
  absorb : ∀ r s : Record, Q s → K (r.absorb s)
  keep : ∀ r s : Record, K r → K (r.absorb s)
  mark : ∀ r : Record, K r → K r.markLoop
  finish : ∀ r : Record, K r → K r.finish
  leave : ∀ r : Record, K r → Q r.finish

/-- What flows is carried on by every act. -/
theorem Act.carried {Q K : Record → Prop} (hQ : Flows Q K) (ha : Act g final S T) (hV : Valid g start final S)
    (h : Carried Q K start S) : Carried Q K start T := by
  cases ha with
  | @enter r v w ws fs hw hf =>
    rcases h with ⟨f, hm, hk⟩ | ⟨_, _, _, _, hp, hd, _⟩ | ⟨hp, _⟩
    · have hne : f.vertex ≠ w := hV.vertex_ne hm (by simp [hw])
      exact .inl ⟨f, List.mem_cons_of_mem _ hm, by simpa [Function.update_of_ne hne] using hk⟩
    · cases hp; rw [hw] at hd; cases hd
    · cases hp
  | @settle r v ws fs hw =>
    rcases h with ⟨f, hm, hk⟩ | ⟨_, _, _, _, hp, hd, _⟩ | ⟨hp, _⟩
    · exact .inl ⟨f, hm, by simpa [Function.update_of_ne (hV.ne_final (hV.phase_of_mem hm))] using hk⟩
    · cases hp; rw [hw] at hd; cases hd
    · cases hp
  | @absorb r v w ws fs hw =>
    rcases h with ⟨f, hm, hk⟩ | ⟨_, _, _, _, hp, _, hq⟩ | ⟨hp, _⟩
    · rcases List.mem_cons.mp hm with rfl | hm
      · exact .inl ⟨⟨v, ws⟩, List.mem_cons_self, by simpa using hQ.keep _ _ hk⟩
      · exact .inl ⟨f, List.mem_cons_of_mem _ hm, by simpa [Function.update_of_ne (hV.ne_head hm)] using hk⟩
    · cases hp
      exact .inl ⟨⟨v, ws⟩, List.mem_cons_self, by simpa using hQ.absorb _ _ hq⟩
    · cases hp
  | @back r v w ws fs hw =>
    have hmark : ∀ u, K (r u) → K (markAll r (spanTo w (⟨v, w :: ws⟩ :: fs)) u) := fun u hk => by
      unfold markAll
      split
      · exact hQ.mark _ hk
      · exact hk
    rcases h with ⟨f, hm, hk⟩ | ⟨_, _, _, _, hp, hd, _⟩ | ⟨hp, _⟩
    · rcases List.mem_cons.mp hm with rfl | hm
      · exact .inl ⟨⟨v, ws⟩, List.mem_cons_self, hmark v hk⟩
      · exact .inl ⟨f, List.mem_cons_of_mem _ hm, hmark _ hk⟩
    · cases hp; rw [hw] at hd; cases hd
    · cases hp
  | @leave r v fs =>
    rcases h with ⟨f, hm, hk⟩ | ⟨_, _, _, _, hp, _⟩ | ⟨hp, _⟩
    · rcases List.mem_cons.mp hm with rfl | hm
      · rcases hV.start_or_due with ⟨rfl, rfl⟩ | ⟨u, ws, below, rfl⟩
        · exact .inr (.inr ⟨rfl, by simpa using hQ.finish _ hk⟩)
        · exact .inr (.inl ⟨u, v, ws, below, rfl, by simp, by simpa using hQ.leave _ hk⟩)
      · exact .inl ⟨f, hm, by simpa [Function.update_of_ne (hV.ne_head hm)] using hk⟩
    · cases hp
    · cases hp

/-- A finished vertex that its parent takes for a way around the final vertex. -/
def Lost (s : Record) : Prop := s.reaches = false ∨ s.avoids = true

theorem flows_reaches : Flows (·.reaches = true) (·.reaches = true) where
  absorb r s h := by simp [Record.absorb, h]
  keep r s h := by simp [Record.absorb, h]
  mark _ h := h
  finish _ h := h
  leave _ h := h

theorem flows_avoids : Flows Lost (·.avoids = true) where
  absorb r s h := by
    rcases h with h | h
    · simp [Record.absorb, h]
    · cases hr : s.reaches <;> simp [Record.absorb, h, hr]
  keep r s h := by simp [Record.absorb, h]
  mark _ h := h
  finish _ h := h
  leave _ h := .inr h

/-- A dead end was met, or a vertex other than the start was finished before it was seen to reach the final one. -/
def Blamed (g : Graph) (start final : Vertex) (S : Survey) : Prop :=
  (∃ w, w < g.size ∧ w ≠ final ∧ g.isSink w = true ∧ (S.record w).phase ≠ .unvisited) ∨
    ∃ w, w < g.size ∧ w ≠ start ∧ (S.record w).phase = .done ∧ (S.record w).reaches = false

/-- What is noted and what it comes from, both ways. -/
structure Noted (g : Graph) (start final : Vertex) (S : Survey) : Prop where
  settled : (S.record final).phase = .done → Carried (·.reaches = true) (·.reaches = true) start S
  lost : ∀ w, w < g.size → w ≠ start → (S.record w).phase = .done → Lost (S.record w) →
    Carried Lost (·.avoids = true) start S
  sink : ∀ w, w < g.size → w ≠ final → g.isSink w = true → (S.record w).phase ≠ .unvisited →
    Carried Lost (·.avoids = true) start S
  blamed : ∀ v, (S.record v).avoids = true → Blamed g start final S

theorem initial_noted (hs : start < g.size) (hf : final < g.size) : Noted g start final (initial g start final) := by
  have hblank : ∀ s v, v < g.size → v ≠ start → (Function.update (blank g) start s v).phase = .unvisited :=
    fun s v hv hne => by simp [Function.update_of_ne hne, blank, hv, Record.unvisited]
  have havoids : ∀ v, (blank g v).avoids = false := fun v => by
    unfold blank
    split <;> rfl
  unfold initial
  split
  next h =>
    subst h
    refine ⟨fun _ => .inr (.inr ⟨rfl, by simp [Record.final]⟩), fun w hw hne hd => ?_, fun w hw hne _ hd => ?_,
      fun v hv => ?_⟩
    · simp [hblank _ w hw hne] at hd
    · simp [hblank _ w hw hne] at hd
    · by_cases he : v = start
      · subst he; simp [Record.final] at hv
      · simp [Function.update_of_ne he, havoids] at hv
  next h =>
    refine ⟨fun hd => ?_, fun w hw hne hd => ?_, fun w hw _ hsink hd => ?_, fun v hv => ?_⟩
    · simp [hblank _ final hf (Ne.symm h)] at hd
    · simp [hblank _ w hw hne] at hd
    · by_cases he : w = start
      · subst he
        exact .inl ⟨_, List.mem_cons_self, by simp [Record.entered, hsink]⟩
      · simp [hblank _ w hw he] at hd
    · by_cases he : v = start
      · subst he
        exact .inl ⟨v, hs, h, by simpa [Record.entered] using hv, by simp [Record.entered]⟩
      · simp [Function.update_of_ne he, havoids] at hv

/-- Blame stays. -/
theorem Act.blamed (ha : Act g final S T) (hV : Valid g start final S) (h : Blamed g start final S) :
    Blamed g start final T := by
  rcases h with ⟨w, hw, hne, hs, hm⟩ | ⟨w, hw, hne, hd, hr⟩
  · exact .inl ⟨w, hw, hne, hs, ha.met hm⟩
  · have heq := ha.frozen hV hd
    exact .inr ⟨w, hw, hne, by rw [heq]; exact hd, by rw [heq]; exact hr⟩

/-- A vertex is met by being entered or settled. -/
theorem Act.met_cases (ha : Act g final S T) (hV : Valid g start final S) (hv : (T.record v).phase ≠ .unvisited) :
    (S.record v).phase ≠ .unvisited ∨ v = final ∨
      (∃ f ∈ T.path, f.vertex = v ∧ T.record v = .entered (g.isSink v)) := by
  cases ha with
  | @enter r _ w =>
    by_cases hu : v = w
    · subst hu; exact .inr (.inr ⟨_, List.mem_cons_self, rfl, by simp⟩)
    · exact .inl (by simpa [Function.update_of_ne hu] using hv)
  | settle =>
    by_cases hu : v = final
    · exact .inr (.inl hu)
    · exact .inl (by simpa [Function.update_of_ne hu] using hv)
  | absorb => exact .inl (by simpa using hv)
  | back => exact .inl (by simpa using hv)
  | @leave r u fs =>
    by_cases hu : v = u
    · subst hu; exact .inl (by simp [hV.phase_head])
    · exact .inl (by simpa [Function.update_of_ne hu] using hv)

/-- A way around the final vertex is noted at a dead end that is entered, or where a finished vertex is absorbed that
was not seen to reach the final one; else it was noted before. -/
theorem Act.avoids_cases (ha : Act g final S T) (hv : (T.record v).avoids = true) :
    (∃ u, (S.record u).avoids = true) ∨
      (v ≠ final ∧ (S.record v).phase = .unvisited ∧ T.record v = .entered (g.isSink v)) ∨
        ∃ w ws fs, S.path = ⟨v, w :: ws⟩ :: fs ∧ (S.record w).phase = .done ∧ (S.record w).reaches = false := by
  cases ha with
  | @enter r u w ws fs hw hf =>
    by_cases hu : v = w
    · subst hu
      exact .inr (.inl ⟨hf, hw, Function.update_self ..⟩)
    · exact .inl ⟨v, by simpa [Function.update_of_ne hu] using hv⟩
  | settle =>
    by_cases hu : v = final
    · subst hu
      simp [Record.final] at hv
    · exact .inl ⟨v, by simpa [Function.update_of_ne hu] using hv⟩
  | @absorb r u w ws fs hw =>
    by_cases hu : v = u
    · subst hu
      simp only [Function.update_self] at hv
      rcases (Bool.or_eq_true ..).mp hv with hv | hv
      · exact .inl ⟨v, hv⟩
      · cases hr : (r w).reaches with
        | true => exact .inl ⟨w, by simpa [hr] using hv⟩
        | false => exact .inr (.inr ⟨w, ws, fs, rfl, hw, hr⟩)
    · exact .inl ⟨v, by simpa [Function.update_of_ne hu] using hv⟩
  | back =>
    refine .inl ⟨v, ?_⟩
    simp only [markAll] at hv
    split at hv <;> exact hv
  | @leave r u fs =>
    by_cases hu : v = u
    · subst hu
      simp only [Function.update_self] at hv
      exact .inl ⟨v, hv⟩
    · exact .inl ⟨v, by simpa [Function.update_of_ne hu] using hv⟩

/-- The final vertex is due when it is settled, and can be seen from the path then. -/
theorem Act.carried_of_settled (ha : Act g final S T) (hV : Valid g start final S) (h : Noted g start final S)
    (hd : (T.record final).phase = .done) : Carried (·.reaches = true) (·.reaches = true) start T := by
  rcases ha.done_cases hd with hd' | ⟨_, u, ws, fs, hp⟩ | ⟨fs, hp, rfl⟩
  · exact ha.carried flows_reaches hV (h.settled hd')
  · refine .inr (.inl ⟨u, final, ws, fs, hp, hd, ?_⟩)
    rw [(ha.valid hV).record_final hd]
    rfl
  · obtain ⟨r, path⟩ := S
    cases hp
    exact absurd rfl (hV.ne_final hV.phase_head)

/-- A vertex other than the start is due to the one below it when it is left. -/
theorem Act.carried_of_lost (ha : Act g final S T) (hV : Valid g start final S) (h : Noted g start final S)
    (hw : w < g.size) (hne : w ≠ start) (hd : (T.record w).phase = .done) (hl : Lost (T.record w)) :
    Carried Lost (·.avoids = true) start T := by
  rcases ha.done_cases hd with hd' | ⟨rfl, _⟩ | ⟨fs, hp, rfl⟩
  · rw [ha.frozen hV hd'] at hl
    exact ha.carried flows_avoids hV (h.lost w hw hne hd' hl)
  · rw [(ha.valid hV).record_final hd] at hl
    rcases hl with hl | hl <;> cases hl
  · obtain ⟨r, path⟩ := S
    cases hp
    rcases hV.start_or_due with ⟨-, hstart⟩ | ⟨u, ws, below, rfl⟩
    · exact absurd hstart hne
    · exact .inr (.inl ⟨u, w, ws, below, rfl, hd, hl⟩)

/-- A dead end notes that it is one when it is entered. -/
theorem Act.carried_of_sink (ha : Act g final S T) (hV : Valid g start final S) (h : Noted g start final S)
    (hw : w < g.size) (hne : w ≠ final) (hs : g.isSink w = true) (hm : (T.record w).phase ≠ .unvisited) :
    Carried Lost (·.avoids = true) start T := by
  rcases ha.met_cases hV hm with hm | hf | ⟨f, hf, rfl, heq⟩
  · exact ha.carried flows_avoids hV (h.sink w hw hne hs hm)
  · exact absurd hf hne
  · exact .inl ⟨f, hf, by rw [heq]; exact hs⟩

/-- Nothing is noted without blame. -/
theorem Act.blamed_of_avoids (ha : Act g final S T) (hV : Valid g start final S) (h : Noted g start final S)
    (hv : (T.record v).avoids = true) : Blamed g start final T := by
  rcases ha.avoids_cases hv with ⟨u, hu⟩ | ⟨hne, hnew, heq⟩ | ⟨w, ws, fs, hp, hd, hr⟩
  · exact ha.blamed hV (h.blamed u hu)
  · rw [heq] at hv
    exact .inl ⟨v, hV.lt_size (by simp [hnew]), hne, hv, by simp [heq, Record.entered]⟩
  · have hmem : (⟨v, w :: ws⟩ : Frame) ∈ S.path := hp ▸ List.mem_cons_self
    have hstart : w ≠ start := by
      rintro rfl
      have := hV.phase_start (List.ne_nil_of_mem hmem)
      rw [hd] at this; cases this
    have hlt : w < g.size := g.lt_size_of_mem_successors (hV.arc hmem List.mem_cons_self).2
    exact ha.blamed hV (.inr ⟨w, hlt, hstart, hd, hr⟩)

theorem Act.noted (ha : Act g final S T) (hV : Valid g start final S) (h : Noted g start final S) :
    Noted g start final T where
  settled := ha.carried_of_settled hV h
  lost _ := ha.carried_of_lost hV h
  sink _ := ha.carried_of_sink hV h
  blamed _ := ha.blamed_of_avoids hV h

theorem Carried.record_start {Q K : Record → Prop} (h : Carried Q K start S) (hp : S.path = []) :
    K (S.record start) := by
  rcases h with ⟨f, hf, _⟩ | ⟨_, _, _, _, hq, _⟩ | ⟨_, hk⟩
  · rw [hp] at hf; cases hf
  · rw [hp] at hq; cases hq
  · exact hk

/-! ## Whole searches -/

/-- All that every act keeps. -/
structure Kept (g : Graph) (start final : Vertex) (S : Survey) : Prop where
  valid : Valid g start final S
  sound : ∀ v, Sound g start final v (S.record v)
  closed : Closed g final S
  clean : Clean g final S
  noted : Noted g start final S

theorem initial_kept (hs : start < g.size) (hf : final < g.size) : Kept g start final (initial g start final) :=
  ⟨initial_valid hs hf, initial_sound g start final, initial_closed g start final, initial_clean g start final,
    initial_noted hs hf⟩

theorem Act.kept (ha : Act g final S T) (h : Kept g start final S) : Kept g start final T :=
  ⟨ha.valid h.valid, ha.sound h.valid h.sound, ha.closed h.valid h.closed, ha.clean h.valid h.clean,
    ha.noted h.valid h.noted⟩

/-- When a search is over, the vertices that it met are finished, and are those that can be reached. -/
theorem Kept.done_iff (h : Kept g start final S) (hp : S.path = []) (hv : v < g.size) :
    (S.record v).phase = .done ↔ g.Reach final start v := by
  have hover : ∀ u, (S.record u).phase ≠ .unvisited → (S.record u).phase = .done := fun u hu => by
    cases hc : (S.record u).phase with
    | unvisited => exact absurd hc hu
    | inProgress => exact absurd hc (h.valid.phase_ne_inProgress hp u)
    | done => rfl
  constructor
  · intro hd
    exact (h.sound v).met hv (by rw [hd]; simp)
  · intro hr
    clear hv
    induction hr with
    | refl => exact h.valid.ended hp
    | @tail u w hu ha ih =>
      refine hover w (h.closed.done u ?_ ha.1 ih w ha.2)
      refine Nat.lt_of_not_le fun hle => ?_
      have := ha.2
      rw [Graph.successors_of_size_le hle] at this
      cases this

end Survey

namespace Graph

variable {g : Graph} {start final : Vertex}

/-- A search is no misuse exactly if it is between vertices of the graph. -/
theorem analyze_eq_ok_iff {a : Analysis} :
    g.analyze start final = .ok a ↔ start < g.size ∧ final < g.size ∧ g.search start final = a := by
  unfold analyze contains
  by_cases hs : start < g.size
  · by_cases hf : final < g.size
    · simp [hs, hf]
    · simp [hs, hf]
  · simp [hs]

/-- The records of a search are those of the last state of its acts. -/
theorem search_kept (hs : start < g.size) (hf : final < g.size) :
    ∃ S : Survey, S.Kept g start final ∧ S.path = [] ∧ (g.search start final).records.size = g.size ∧
      ∀ v, (g.search start final).records.getD v .outside = S.record v := by
  obtain ⟨S, hacts, -, hp, hsize, hrec⟩ := g.search_act hs hf
  refine ⟨S, ?_, hp, hsize, hrec⟩
  clear hp hrec
  induction hacts with
  | refl => exact Survey.initial_kept hs hf
  | tail _ ha ih => exact ha.kept ih

/-- A record is shown if its vertex was finished. -/
theorem record?_eq_some_iff {a : Analysis} {v : Vertex} {s : Record} :
    a.record? v = some s ↔ v < a.records.size ∧ a.records.getD v .outside = s ∧ s.phase = .done := by
  unfold Analysis.record?
  by_cases hv : v < a.records.size
  · simp [hv, Option.filter_eq_some_iff, Array.getD, and_comm]
  · simp [hv]

/-- The vertices that a search met are those that walks from its start come to. -/
theorem search_record?_isSome_iff (hs : start < g.size) (hf : final < g.size) (v : Vertex) :
    ((g.search start final).record? v).isSome = true ↔ g.Reach final start v := by
  obtain ⟨S, hS, hp, hsize, hrec⟩ := search_kept hs hf
  rw [Option.isSome_iff_exists]
  simp only [record?_eq_some_iff, hsize, hrec]
  constructor
  · rintro ⟨s, hv, rfl, hd⟩
    exact (hS.done_iff hp hv).mp hd
  · intro hr
    have hv := lt_size_of_reach hs hr
    exact ⟨_, hv, rfl, (hS.done_iff hp hv).mpr hr⟩

/-- A search leaves no vertex in progress. -/
theorem phase_ne_inProgress_of_mem_records (hs : start < g.size) (hf : final < g.size) {s : Record}
    (h : s ∈ (g.search start final).records) : s.phase ≠ .inProgress := by
  obtain ⟨S, hS, hp, -, hrec⟩ := search_kept hs hf
  obtain ⟨v, hv, rfl⟩ := Array.mem_iff_getElem.mp h
  have hget : (g.search start final).records.getD v .outside = (g.search start final).records[v] := by
    simp [Array.getD, hv]
  rw [← hget, hrec]
  exact hS.valid.phase_ne_inProgress hp v

/-- The start of a search is finished. -/
theorem search_record?_start (hs : start < g.size) (hf : final < g.size) :
    (g.search start final).record? start = some (g.search start final).startRecord := by
  obtain ⟨r, hr⟩ := Option.isSome_iff_exists.mp ((search_record?_isSome_iff hs hf start).mpr .refl)
  obtain ⟨-, hrec, -⟩ := record?_eq_some_iff.mp hr
  rw [hr]
  exact congrArg some hrec.symm

/-- The final vertex is seen from the start exactly if it can be reached. -/
theorem search_reaches_iff (hs : start < g.size) (hf : final < g.size) :
    (g.search start final).startRecord.reaches = true ↔ g.Reach final start final := by
  obtain ⟨S, hS, hp, -, hrec⟩ := search_kept hs hf
  have hstart : (g.search start final).startRecord = S.record start := hrec start
  rw [hstart]
  constructor
  · exact (hS.sound start).reaches
  · intro hr
    exact (hS.noted.settled ((hS.done_iff hp hf).mpr hr)).record_start hp

/-- Where no loop was noted at a vertex, its record is exact. -/
theorem exact_of_record? (hs : start < g.size) (hf : final < g.size) {v : Vertex} {s : Record}
    (hv : (g.search start final).record? v = some s) (hl : s.loops = false) : Survey.Exact g final v s := by
  obtain ⟨S, hS, -, hsize, hrec⟩ := search_kept hs hf
  obtain ⟨hlt, rfl, hd⟩ := record?_eq_some_iff.mp hv
  rw [hrec] at hl hd ⊢
  exact hS.clean.done v (hsize ▸ hlt) hd hl

/-- A loop is noted at a vertex exactly if a walk from there runs into one. -/
theorem loops_iff_of_record? (hs : start < g.size) (hf : final < g.size) {v : Vertex} {s : Record}
    (hv : (g.search start final).record? v = some s) : s.loops = true ↔ g.Loops final v := by
  constructor
  · obtain ⟨S, hS, -, -, hrec⟩ := search_kept hs hf
    obtain ⟨-, rfl, -⟩ := record?_eq_some_iff.mp hv
    rw [hrec]
    exact (hS.sound v).loops
  · intro hloops
    by_contra hl
    have hex := exact_of_record? hs hf hv (by simpa using hl)
    exact not_endless_iff.mpr hex.ends hloops.endless

theorem search_exact (hs : start < g.size) (hf : final < g.size)
    (hl : (g.search start final).startRecord.loops = false) :
    Survey.Exact g final start (g.search start final).startRecord :=
  exact_of_record? hs hf (search_record?_start hs hf) hl

theorem search_loops_iff (hs : start < g.size) (hf : final < g.size) :
    (g.search start final).startRecord.loops = true ↔ g.Loops final start :=
  loops_iff_of_record? hs hf (search_record?_start hs hf)

/-- A loop is noted at the start exactly if a walk goes on for ever. -/
theorem search_endless_iff (hs : start < g.size) (hf : final < g.size) :
    (g.search start final).startRecord.loops = true ↔ Endless (g.Arc final) start := by
  constructor
  · intro hl
    exact ((search_loops_iff hs hf).mp hl).endless
  · intro hend
    by_contra hl
    exact not_endless_iff.mpr (search_exact hs hf (by simpa using hl)).ends hend

/-- **A way around the final vertex** is noted at the start exactly if a walk runs into a dead end, or some other vertex
was finished before it was seen to reach the final one. -/
theorem search_avoids_iff (hs : start < g.size) (hf : final < g.size) :
    (g.search start final).startRecord.avoids = true ↔
      g.Strands final start ∨
        ∃ v s, v ≠ start ∧ (g.search start final).record? v = some s ∧ s.reaches = false := by
  obtain ⟨S, hS, hp, hsize, hrec⟩ := search_kept hs hf
  have hstart : (g.search start final).startRecord = S.record start := hrec start
  simp only [record?_eq_some_iff, hsize, hrec, hstart]
  constructor
  · intro ha
    rcases hS.noted.blamed start ha with ⟨w, hw, hne, hsink, hm⟩ | ⟨w, hw, hne, hd, hr⟩
    · exact .inl ⟨w, (hS.sound w).met hw hm, hne, hsink⟩
    · exact .inr ⟨w, _, hne, ⟨hw, rfl, hd⟩, hr⟩
  · rintro (⟨w, hr, hne, hsink⟩ | ⟨w, s, hne, ⟨hw, rfl, hd⟩, hr⟩)
    · have hw := lt_size_of_reach hs hr
      have hd := (hS.done_iff hp hw).mpr hr
      exact (hS.noted.sink w hw hne hsink (by rw [hd]; simp)).record_start hp
    · exact (hS.noted.lost w hw hne hd (.inl hr)).record_start hp

/-- A record that says that the final vertex is reached is right. -/
theorem reach_of_search_reaches (hs : start < g.size) (hf : final < g.size) {v : Vertex} {s : Record}
    (hv : (g.search start final).record? v = some s) (hr : s.reaches = true) : g.Reach final v final := by
  obtain ⟨S, hS, -, -, hrec⟩ := search_kept hs hf
  obtain ⟨-, rfl, -⟩ := record?_eq_some_iff.mp hv
  rw [hrec] at hr
  exact (hS.sound v).reaches hr

end Graph

end Waymark
