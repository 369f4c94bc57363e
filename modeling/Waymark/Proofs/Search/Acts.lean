import Waymark.Proofs.Search.Survey
import Waymark.Search.Analysis

/-!
# Searches are made of acts

A vertex that is being visited is still due to its parent in a `Survey`, and no more in a `Search`. With the difference
put back (`owed`), every step is one or two acts (`Search.step_act`), a run is a sequence of acts (`Search.run_act`),
and a whole search leads by acts from `Survey.initial` to the records that it returns (`Graph.search_act`).
-/

namespace Waymark

open Relation

/-! ## From steps to acts -/

/-- A path on which every vertex also owes `child`, the one below it on the list the vertex above. -/
def owed (child : List Vertex) : List Frame → List Frame
  | [] => []
  | f :: fs => ⟨f.vertex, child ++ f.pending⟩ :: owed [f.vertex] fs

@[simp] theorem map_vertex_owed (child : List Vertex) (fs : List Frame) :
    (owed child fs).map (·.vertex) = fs.map (·.vertex) := by
  induction fs generalizing child with
  | nil => rfl
  | cons f fs ih => simp [owed, ih]

theorem owed_eq_nil {child : List Vertex} {fs : List Frame} : owed child fs = [] ↔ fs = [] := by
  cases fs <;> simp [owed]

namespace Search

variable {g : Graph} {start final : Vertex} {σ : Search} {v w : Vertex}

/-- The state of a search between two steps. -/
def survey (σ : Search) : Survey := ⟨σ.record, owed [] σ.path⟩

@[simp] theorem record_survey (σ : Search) : σ.survey.record = σ.record := rfl

@[simp] theorem active_survey (σ : Search) : σ.survey.active = σ.path.map (·.vertex) :=
  map_vertex_owed [] σ.path

/-- An update seen from the records. -/
theorem record_update_eq (hv : v < σ.records.size) (f : Record → Record) :
    (σ.update v f).record = Function.update σ.record v (f (σ.record v)) := by
  funext u
  rw [record_update]
  by_cases hu : u = v
  · subst hu; simp [hv]
  · simp [Function.update_of_ne hu, Ne.symm hu]

theorem path_markLoop (σ : Search) (w : Vertex) : (σ.markLoop w).path = σ.path := by
  unfold markLoop
  generalize spanTo w σ.path = vs
  induction vs generalizing σ with
  | nil => rfl
  | cons v vs ih => rw [List.foldl_cons, ih, path_update]

/-- Marking a loop changes the records of its span. -/
theorem record_markLoop (h : ∀ u ∈ spanTo w σ.path, u < σ.records.size) :
    (σ.markLoop w).record = Survey.markAll σ.record (spanTo w σ.path) := by
  unfold markLoop
  revert h
  generalize spanTo w σ.path = vs
  intro h
  induction vs generalizing σ with
  | nil => funext u; simp [Survey.markAll]
  | cons v vs ih =>
    have hv : v < σ.records.size := h v List.mem_cons_self
    rw [List.foldl_cons, ih fun u hu => by simpa using h u (List.mem_cons_of_mem _ hu), record_update_eq hv]
    funext u
    by_cases hu : u = v
    · subst hu
      by_cases hm : u ∈ vs <;> simp [Survey.markAll, hm, Record.markLoop]
    · simp [Survey.markAll, hu]

/-- Absorption seen from the records. -/
theorem record_absorb {f : Frame} {fs : List Frame} (hp : σ.path = f :: fs) (hv : f.vertex < σ.records.size) :
    (σ.absorb w).record = Function.update σ.record f.vertex ((σ.record f.vertex).absorb (σ.record w)) := by
  unfold absorb
  rw [hp]
  exact record_update_eq hv _

theorem path_absorb (σ : Search) (w : Vertex) : (σ.absorb w).path = σ.path := by
  unfold absorb
  split <;> rfl

/-- A search between two steps is valid if it has a record for each vertex. -/
structure Valid (g : Graph) (start final : Vertex) (σ : Search) : Prop where
  size : σ.records.size = g.size
  survey : σ.survey.Valid g start final

/-- The vertices of the active path have records. -/
theorem Valid.lt_size (h : σ.Valid g start final) {f : Frame} (hf : f ∈ σ.path) : f.vertex < σ.records.size := by
  have hm : f.vertex ∈ σ.survey.active := by
    rw [active_survey]
    exact List.mem_map_of_mem hf
  have hp := (h.survey.inProgress f.vertex).mp hm
  exact lt_size_of_phase fun hd => by rw [record_survey, hd] at hp; cases hp

/-- Finishing a vertex is leaving it and, if it has a parent, letting that absorb it. -/
theorem finish_act (hv : v < σ.records.size) (hfs : ∀ f ∈ σ.path, f.vertex < σ.records.size) :
    TransGen (Survey.Act g final) ⟨σ.record, ⟨v, []⟩ :: owed [v] σ.path⟩ ((σ.update v .finish).absorb v).survey := by
  have hrec := record_update_eq hv .finish
  have hleave : Survey.Act g final ⟨σ.record, ⟨v, []⟩ :: owed [v] σ.path⟩
      ⟨(σ.update v .finish).record, owed [v] σ.path⟩ := by
    rw [hrec]
    exact .leave
  cases hp : σ.path with
  | nil =>
    have habs : (σ.update v .finish).absorb v = σ.update v .finish := by
      unfold absorb
      rw [path_update, hp]
    rw [hp] at hleave
    rw [habs]
    unfold survey
    rw [path_update, hp]
    exact .single hleave
  | cons p fs =>
    have hpv : p.vertex < (σ.update v .finish).records.size := by
      rw [size_records_update]
      exact hfs p (by rw [hp]; exact List.mem_cons_self)
    have hdone : ((σ.update v .finish).record v).phase = .done := by rw [hrec]; simp
    rw [hp] at hleave
    unfold survey
    rw [path_absorb, record_absorb ((path_update ..).trans hp) hpv, path_update, hp]
    exact .tail (.single hleave) (.absorb hdone)

/-- Looking at a successor is entering it, absorbing it, or closing a loop. -/
theorem visit_act {ws : List Vertex} {fs : List Frame} (hp : σ.path = ⟨v, ws⟩ :: fs)
    (hfs : ∀ f ∈ σ.path, f.vertex < σ.records.size) :
    TransGen (Survey.Act g final) ⟨σ.record, ⟨v, w :: ws⟩ :: owed [v] fs⟩ (visit g final σ v w).survey := by
  have hv : v < σ.records.size := hfs ⟨v, ws⟩ (by rw [hp]; exact List.mem_cons_self)
  unfold visit
  split
  next hw =>
    have hws : w < σ.records.size := lt_size_of_phase fun hd => by rw [hd] at hw; cases hw
    split
    next hf =>
      subst hf
      have hrec := record_update_eq hws fun _ => .final
      have hdone : ((σ.update w fun _ => .final).record w).phase = .done := by rw [hrec]; simp [Record.final]
      unfold survey
      rw [path_absorb, record_absorb ((path_update ..).trans hp) (by simpa using hv), path_update, hp]
      refine .tail (.single (.settle hw)) ?_
      rw [← hrec]
      exact .absorb hdone
    next hf =>
      have hrec : (σ.enter g w).record = Function.update σ.record w (.entered (g.isSink w)) := record_update_eq hws _
      have hpath : (σ.enter g w).path = ⟨w, g.successors w⟩ :: ⟨v, ws⟩ :: fs := by rw [← hp]; rfl
      unfold survey
      rw [hrec, hpath]
      exact .single (.enter hw hf)
  next hw =>
    have hspan : spanTo w σ.path = spanTo w (⟨v, w :: ws⟩ :: owed [v] fs) := spanTo_congr (by simp [hp])
    have hrec : (σ.markLoop w).record = Survey.markAll σ.record (spanTo w σ.path) := record_markLoop fun u hu => by
      obtain ⟨f, hf, rfl⟩ := List.mem_map.mp (mem_of_mem_spanTo hu)
      exact hfs f hf
    have hsurvey : ({ σ.markLoop w with backEdges := (v, w) :: σ.backEdges } : Search).survey =
        ⟨(σ.markLoop w).record, owed [] (σ.markLoop w).path⟩ := rfl
    rw [hsurvey, hrec, path_markLoop, hspan, hp]
    exact .single (.back hw)
  next hw =>
    unfold survey
    rw [path_absorb, record_absorb hp hv, hp]
    exact .single (.absorb hw)

/-- **A step is made of acts**, at least one. -/
theorem step_act (h : σ.Valid g start final) (hne : σ.path ≠ []) :
    TransGen (Survey.Act g final) σ.survey (step g final σ).survey := by
  obtain ⟨⟨v, pending⟩, fs, hp⟩ := List.exists_cons_of_ne_nil hne
  have hlt : ∀ f ∈ ⟨v, pending⟩ :: fs, f.vertex < σ.records.size := fun f hf => h.lt_size (by rw [hp]; exact hf)
  cases pending with
  | nil =>
    have hstep : step g final σ = ({ σ with path := fs }.update v .finish).absorb v := by unfold step; rw [hp]
    have hsurvey : σ.survey = ⟨σ.record, ⟨v, []⟩ :: owed [v] fs⟩ := by unfold survey; rw [hp]; rfl
    rw [hstep, hsurvey]
    exact finish_act (σ := { σ with path := fs }) (hlt _ List.mem_cons_self)
      fun f hf => hlt f (List.mem_cons_of_mem _ hf)
  | cons w ws =>
    have hstep : step g final σ = visit g final { σ with path := ⟨v, ws⟩ :: fs } v w := by unfold step; rw [hp]
    have hsurvey : σ.survey = ⟨σ.record, ⟨v, w :: ws⟩ :: owed [v] fs⟩ := by unfold survey; rw [hp]; rfl
    rw [hstep, hsurvey]
    refine visit_act (σ := { σ with path := ⟨v, ws⟩ :: fs }) rfl fun f hf => ?_
    rcases List.mem_cons.mp hf with rfl | hf
    · exact hlt ⟨v, w :: ws⟩ List.mem_cons_self
    · exact hlt f (List.mem_cons_of_mem _ hf)

/-! ## Whole runs -/

theorem size_records_step (g : Graph) (final : Vertex) (σ : Search) :
    (step g final σ).records.size = σ.records.size := by
  have habs : ∀ (σ : Search) (w : Vertex), (σ.absorb w).records.size = σ.records.size := fun σ w => by
    unfold absorb
    split <;> simp
  have hmark : ∀ (σ : Search) (vs : List Vertex),
      (vs.foldl (fun σ v => σ.update v .markLoop) σ).records.size = σ.records.size := fun σ vs => by
    induction vs generalizing σ with
    | nil => rfl
    | cons v vs ih => rw [List.foldl_cons, ih, size_records_update]
  unfold step
  split
  · rfl
  · rw [habs, size_records_update]
  · unfold visit
    split
    · split
      · rw [habs, size_records_update]
      · simp [enter]
    · exact hmark _ _
    · exact habs _ _

theorem Valid.step (h : σ.Valid g start final) (hne : σ.path ≠ []) : (step g final σ).Valid g start final :=
  ⟨(size_records_step g final σ).trans h.size, h.survey.of_acts (step_act h hne).to_reflTransGen⟩

/-- **A run is a sequence of acts** to a state with an empty path. -/
theorem run_act (h : σ.Valid g start final) :
    ReflTransGen (Survey.Act g final) σ.survey (run g final σ).survey ∧ (run g final σ).Valid g start final ∧
      (run g final σ).path = [] := by
  fun_induction run g final σ with
  | case1 σ hp => exact ⟨.refl, h, hp⟩
  | case2 σ hp ih =>
    obtain ⟨hacts, hvalid, hend⟩ := ih (h.step hp)
    exact ⟨(step_act h hp).to_reflTransGen.trans hacts, hvalid, hend⟩

end Search

/-! ## Whole searches -/

namespace Survey

/-- Nothing is known. -/
def blank (g : Graph) : Vertex → Record := fun v => if v < g.size then .unvisited else .outside

/-- The state in which a search starts. -/
def initial (g : Graph) (start final : Vertex) : Survey :=
  if start = final then ⟨Function.update (blank g) start .final, []⟩
  else ⟨Function.update (blank g) start (.entered (g.isSink start)), [⟨start, g.successors start⟩]⟩

variable {g : Graph} {start final : Vertex}

theorem phase_blank_ne (g : Graph) (v : Vertex) : (blank g v).phase ≠ .inProgress := by
  unfold blank
  split <;> simp [Record.unvisited, Record.outside]

theorem initial_valid (hs : start < g.size) (hf : final < g.size) : (initial g start final).Valid g start final := by
  have hout : ∀ r v, g.size ≤ v → Function.update (blank g) start r v = .outside := fun r v hv => by
    rw [Function.update_of_ne (Nat.lt_of_lt_of_le hs hv).ne']
    exact if_neg (Nat.not_lt.mpr hv)
  unfold initial
  split
  next h =>
    subst h
    refine ⟨fun v => ?_, by simp [active], .inr (by simp), by simp, .nil, by simp, fun _ => by simp [Record.final],
      hout _⟩
    by_cases hv : v = start
    · subst hv; simp [active, Record.final]
    · simpa [active, Function.update_of_ne hv] using phase_blank_ne g v
  next h =>
    refine ⟨fun v => ?_, by simp [active], .inl ?_, by simp, .singleton _, by simp [active], by simp, hout _⟩
    · by_cases hv : v = start
      · subst hv; simp [active, Record.entered]
      · simpa [active, Function.update_of_ne hv, hv] using phase_blank_ne g v
    · simp [Function.update_of_ne (Ne.symm h), blank, hf, Record.unvisited]

end Survey

theorem Search.survey_initial {g : Graph} {start final : Vertex} (hs : start < g.size) :
    (Search.initial g start final).survey = Survey.initial g start final := by
  have hblank : (⟨Array.replicate g.size .unvisited, [], []⟩ : Search).record = Survey.blank g := by
    funext v
    simp only [Search.record, Survey.blank, Array.getD_eq_getD_getElem?, Array.getElem?_replicate]
    split <;> rfl
  have hupd : ∀ r, ((⟨Array.replicate g.size .unvisited, [], []⟩ : Search).update start fun _ => r).record =
      Function.update (Survey.blank g) start r := fun r => by
    rw [Search.record_update_eq (by simpa using hs), hblank]
  unfold Search.initial Survey.initial
  split
  · exact Survey.mk.injEq .. ▸ ⟨hupd .final, rfl⟩
  · exact Survey.mk.injEq .. ▸ ⟨hupd (.entered (g.isSink start)), rfl⟩

theorem Search.initial_valid {g : Graph} {start final : Vertex} (hs : start < g.size) (hf : final < g.size) :
    (Search.initial g start final).Valid g start final where
  size := by
    unfold Search.initial
    split <;> simp [Search.enter]
  survey := by
    rw [Search.survey_initial hs]
    exact Survey.initial_valid hs hf

/-- **A search is a sequence of acts** from its initial state to one with an empty path, whose records it returns. -/
theorem Graph.search_act (g : Graph) {start final : Vertex} (hs : start < g.size) (hf : final < g.size) :
    ∃ S : Survey, ReflTransGen (Survey.Act g final) (.initial g start final) S ∧ S.Valid g start final ∧ S.path = [] ∧
      (g.search start final).records.size = g.size ∧
      ∀ v, (g.search start final).records.getD v .outside = S.record v := by
  obtain ⟨hacts, hend, hpath⟩ := Search.run_act (Search.initial_valid hs hf)
  rw [Search.survey_initial hs] at hacts
  refine ⟨_, hacts, hend.survey, owed_eq_nil.mpr hpath, hend.size, fun v => rfl⟩

end Waymark
