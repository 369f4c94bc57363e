import Mathlib.Logic.Function.Iterate
import Waymark.Proofs.Search.Exact

/-!
# The active path of a search

Between any two steps the records, the active path and the successors that are left on it fit together
(`Search.Coherent`): the vertices in progress are those of the path, each once, from the start on; each is the successor
that the one below it looked at last; and an edge back to a vertex in progress is marked down to that vertex and no
further. This is `Search.Valid`, told by the numbers of the successors that were looked at (`Frame.cursor`).

Steps keep it (`Search.Valid.iterate`) and leave finished vertices alone (`Search.Valid.record_iterate`), and after
finitely many of them the path is empty (`Search.exists_iterate_eq_run`).
-/

namespace Waymark

open Relation

/-! ## Successors that were looked at -/

namespace Frame

variable {g : Graph} {f : Frame} {w : Vertex}

/-- The number of successors that were looked at. -/
def cursor (g : Graph) (f : Frame) : Nat := (g.successors f.vertex).length - f.pending.length

/-- The last successor that was looked at. -/
theorem getElem?_cursor (h : w :: f.pending <:+ g.successors f.vertex) :
    0 < f.cursor g ∧ (g.successors f.vertex)[f.cursor g - 1]? = some w := by
  obtain ⟨front, hfront⟩ := h
  have hcursor : f.cursor g = front.length + 1 := by
    rw [cursor, ← hfront, List.length_append, List.length_cons]
    omega
  rw [hcursor, ← hfront]
  exact ⟨Nat.succ_pos _, by simp⟩

end Frame

section Owed

variable {g : Graph} {child : List Vertex} {fs : List Frame}

/-- What is left of the successors of a vertex, when the vertex above it was one of them. -/
theorem pending_suffix_of_owed (h : ∀ f ∈ owed child fs, f.pending <:+ g.successors f.vertex) :
    ∀ f ∈ fs, f.pending <:+ g.successors f.vertex := by
  induction fs generalizing child with
  | nil => simp
  | cons f fs ih =>
    rw [owed, List.forall_mem_cons] at h
    rw [List.forall_mem_cons]
    exact ⟨(List.suffix_append child f.pending).trans h.1, ih h.2⟩

/-- The vertex above is the successor in front of those that are left. -/
theorem isChain_of_owed (h : ∀ f ∈ owed child fs, f.pending <:+ g.successors f.vertex) :
    fs.IsChain fun f p => f.vertex :: p.pending <:+ g.successors p.vertex := by
  induction fs generalizing child with
  | nil => exact .nil
  | cons f fs ih =>
    rw [owed, List.forall_mem_cons] at h
    cases fs with
    | nil => exact .singleton f
    | cons p fs =>
      have hp : f.vertex :: p.pending <:+ g.successors p.vertex :=
        h.2 ⟨p.vertex, [f.vertex] ++ p.pending⟩ (by simp [owed])
      exact .cons_cons hp (ih h.2)

end Owed

/-- The span to a vertex of the path ends there. -/
theorem spanTo_eq_of_mem {w : Vertex} {fs : List Frame} (h : w ∈ fs.map (·.vertex)) :
    ∃ above f below, fs = above ++ f :: below ∧ f.vertex = w ∧ (∀ k ∈ above, k.vertex ≠ w) ∧
      spanTo w fs = above.map (·.vertex) ++ [w] := by
  induction fs with
  | nil => cases h
  | cons f fs ih =>
    by_cases hf : f.vertex = w
    · exact ⟨[], f, fs, rfl, hf, by simp, by simp [spanTo, hf]⟩
    · have hmem : w ∈ fs.map (·.vertex) := by simpa [Ne.symm hf] using h
      obtain ⟨above, k, below, rfl, hk, habove, hspan⟩ := ih hmem
      refine ⟨f :: above, k, below, rfl, hk, List.forall_mem_cons.mpr ⟨hf, habove⟩, ?_⟩
      rw [spanTo, if_neg hf, hspan]
      rfl

/-- Acts leave finished vertices alone. -/
theorem Survey.Valid.record_of_acts {g : Graph} {start final v : Vertex} {S T : Survey} (h : S.Valid g start final)
    (hacts : ReflTransGen (Survey.Act g final) S T) (hv : (S.record v).phase = .done) : T.record v = S.record v := by
  induction hacts with
  | refl => rfl
  | tail hpre hact ih => rw [hact.frozen (h.of_acts hpre) (by rw [ih]; exact hv), ih]

/-! ## The state between two steps -/

namespace Search

variable {g : Graph} {start final v w : Vertex} {σ : Search}

/-- How the records, the active path and the successors that are left on it fit together. -/
structure Coherent (g : Graph) (start final : Vertex) (σ : Search) : Prop where
  size : σ.records.size = g.size
  nodup : (σ.path.map (·.vertex)).Nodup
  inProgress : ∀ v, v ∈ σ.path.map (·.vertex) ↔ (σ.record v).phase = .inProgress
  bottom : ∀ f, σ.path.getLast? = some f → f.vertex = start
  ne_final : ∀ f ∈ σ.path, f.vertex ≠ final
  pending : ∀ f ∈ σ.path, f.pending = (g.successors f.vertex).drop (f.cursor g)
  /-- Every vertex but the outermost one is the successor that the one below it looked at last. -/
  linked : σ.path.IsChain fun f p => 0 < p.cursor g ∧ (g.successors p.vertex)[p.cursor g - 1]? = some f.vertex
  /-- An edge back to a vertex in progress is marked from the innermost vertex down to that one. -/
  marking : ∀ {v w ws fs}, σ.path = ⟨v, w :: ws⟩ :: fs → (σ.record w).phase = .inProgress →
    ∃ above f below, ⟨v, ws⟩ :: fs = above ++ f :: below ∧ f.vertex = w ∧ (∀ k ∈ above, k.vertex ≠ w) ∧
      (step g final σ).path = ⟨v, ws⟩ :: fs ∧
      ∀ u, (step g final σ).record u =
        if u ∈ (above ++ [f]).map (·.vertex) then (σ.record u).markLoop else σ.record u

/-- An edge back to the vertex `w` of the path. -/
theorem Valid.step_of_inProgress (h : σ.Valid g start final) {ws : List Vertex} {fs : List Frame}
    (hp : σ.path = ⟨v, w :: ws⟩ :: fs) (hw : (σ.record w).phase = .inProgress) :
    (Search.step g final σ).path = ⟨v, ws⟩ :: fs ∧
      (Search.step g final σ).record = Survey.markAll σ.record (spanTo w (⟨v, ws⟩ :: fs)) := by
  have hstep : Search.step g final σ = { markLoop { σ with path := ⟨v, ws⟩ :: fs } w with
      backEdges := (v, w) :: σ.backEdges } := by
    unfold Search.step
    rw [hp]
    have hrecord : (record { σ with path := ⟨v, ws⟩ :: fs } w).phase = .inProgress := hw
    simp only [visit, hrecord]
  have hlt : ∀ u ∈ spanTo w (⟨v, ws⟩ :: fs), u < σ.records.size := by
    intro u hu
    have hmem : u ∈ σ.path.map (·.vertex) := by
      rw [hp]
      exact mem_of_mem_spanTo hu
    obtain ⟨f, hf, rfl⟩ := List.mem_map.mp hmem
    exact h.lt_size hf
  rw [hstep]
  exact ⟨path_markLoop _ w, record_markLoop (σ := { σ with path := ⟨v, ws⟩ :: fs }) hlt⟩

/-- **A valid state is coherent.** -/
theorem Valid.coherent (h : σ.Valid g start final) : σ.Coherent g start final := by
  have hactive := σ.active_survey
  have hin : ∀ v, v ∈ σ.path.map (·.vertex) ↔ (σ.record v).phase = .inProgress := fun v => by
    rw [← hactive]
    exact h.survey.inProgress v
  refine ⟨h.size, hactive ▸ h.survey.nodup, hin, fun f hf => ?_, fun f hf => ?_, fun f hf => ?_, ?_,
    fun {v w ws fs} hp hw => ?_⟩
  · have hne : σ.survey.path ≠ [] := fun hnil => by
      rw [owed_eq_nil.mp hnil] at hf
      cases hf
    have hbottom := h.survey.bottom hne
    rw [hactive, List.getLast?_map, hf] at hbottom
    exact Option.some.inj hbottom
  · exact h.survey.ne_final ((hin f.vertex).mp (List.mem_map_of_mem hf))
  · exact List.suffix_iff_eq_drop.mp (pending_suffix_of_owed h.survey.due f hf)
  · exact (isChain_of_owed h.survey.due).imp fun f p hfp => Frame.getElem?_cursor hfp
  · have hmem : w ∈ (⟨v, ws⟩ :: fs : List Frame).map (·.vertex) := by simpa [hp] using (hin w).mpr hw
    obtain ⟨above, f, below, hsplit, hf, habove, hspan⟩ := spanTo_eq_of_mem hmem
    obtain ⟨hpath, hrecord⟩ := h.step_of_inProgress hp hw
    refine ⟨above, f, below, hsplit, hf, habove, hpath, fun u => ?_⟩
    rw [hrecord, hspan, List.map_append, List.map_singleton, hf]
    rfl

/-! ## Step after step -/

theorem step_of_path_eq_nil (h : σ.path = []) : step g final σ = σ := by
  unfold step
  rw [h]

theorem Valid.iterate (h : σ.Valid g start final) (n : Nat) : ((Search.step g final)^[n] σ).Valid g start final := by
  induction n with
  | zero => exact h
  | succ n ih =>
    rw [Function.iterate_succ_apply']
    by_cases hp : ((Search.step g final)^[n] σ).path = []
    · rw [step_of_path_eq_nil hp]
      exact ih
    · exact ih.step hp

/-- A step leaves finished vertices alone. -/
theorem Valid.record_step (h : σ.Valid g start final) (hv : (σ.record v).phase = .done) :
    (Search.step g final σ).record v = σ.record v := by
  by_cases hp : σ.path = []
  · rw [step_of_path_eq_nil hp]
  · exact h.survey.record_of_acts (step_act h hp).to_reflTransGen hv

/-- So do any number of steps. -/
theorem Valid.record_iterate (h : σ.Valid g start final) {m n : Nat} (hmn : m ≤ n)
    (hv : (((Search.step g final)^[m] σ).record v).phase = .done) :
    ((Search.step g final)^[n] σ).record v = ((Search.step g final)^[m] σ).record v := by
  induction n, hmn using Nat.le_induction with
  | base => rfl
  | succ n hmn ih =>
    rw [Function.iterate_succ_apply', (h.iterate n).record_step (by rw [ih]; exact hv), ih]

/-- A run takes steps until the path is empty. -/
theorem exists_iterate_eq_run (g : Graph) (final : Vertex) (σ : Search) :
    ∃ n, (∀ m < n, ((step g final)^[m] σ).path ≠ []) ∧ ((step g final)^[n] σ).path = [] ∧
      run g final σ = (step g final)^[n] σ := by
  fun_induction run g final σ with
  | case1 σ hp => exact ⟨0, by simp, hp, rfl⟩
  | case2 σ hp ih =>
    obtain ⟨n, hbefore, hend, hrun⟩ := ih
    refine ⟨n + 1, fun m hm => ?_, hend, hrun⟩
    cases m with
    | zero => exact hp
    | succ m => exact hbefore m (Nat.lt_of_succ_lt_succ hm)

end Search

/-! ## Whole searches -/

namespace Graph

variable {g : Graph} {start final : Vertex}

/-- **Every state of a search**: the path is coherent with the records between any two steps, finished vertices keep
their records, and after finitely many steps the path is empty and the records are those that are returned. -/
theorem analyze_states (hs : start < g.size) (hf : final < g.size) :
    let σ n := (Search.step g final)^[n] (Search.initial g start final)
    (∀ n, (σ n).Coherent g start final) ∧
      (∀ m n v, m ≤ n → ((σ m).record v).phase = .done → (σ n).record v = (σ m).record v) ∧
      ∃ n, (∀ m < n, (σ m).path ≠ []) ∧ (σ n).path = [] ∧
        g.analyze start final = .ok ⟨start, final, (σ n).records, (σ n).backEdges.reverse⟩ := by
  have hvalid := Search.initial_valid hs hf
  refine ⟨fun n => (hvalid.iterate n).coherent, fun m n v hmn hv => hvalid.record_iterate hmn hv, ?_⟩
  obtain ⟨n, hbefore, hend, hrun⟩ := Search.exists_iterate_eq_run g final (Search.initial g start final)
  refine ⟨n, hbefore, hend, analyze_eq_ok_iff.mpr ⟨hs, hf, ?_⟩⟩
  rw [search, hrun]

/-- After two steps three vertices are on the path, and the edge from `2` back to `1` is marked down to `1`, not to the
start. -/
theorem analyze_states_back_edge :
    let g : Graph := ⟨#[[1, 2], [2, 3], [1], [], [0, 4]], by decide⟩
    let σ n := (Search.step g 3)^[n] (Search.initial g 0 3)
    0 < g.size ∧ 3 < g.size ∧ (σ 2).Coherent g 0 3 ∧ (σ 2).path = [⟨2, [1]⟩, ⟨1, [3]⟩, ⟨0, [2]⟩] ∧
      (List.range 3).map (fun v => ((σ 3).record v).loops) = [false, true, true] ∧
      (σ 5).record 2 = (σ 4).record 2 ∧ ∃ n, (σ n).path = [] := by
  intro g σ
  have hs : 0 < g.size := by decide
  have hf : 3 < g.size := by decide
  obtain ⟨hcoherent, hfrozen, n, -, hend, -⟩ := analyze_states hs hf
  have hpath : (σ 2).path = [⟨2, [1]⟩, ⟨1, [3]⟩, ⟨0, [2]⟩] := by decide +kernel
  have hdone : ((σ 4).record 2).phase = .done := by decide +kernel
  refine ⟨hs, hf, hcoherent 2, hpath, by decide +kernel, hfrozen 4 5 2 (by decide) hdone, n, hend⟩

end Graph

end Waymark
