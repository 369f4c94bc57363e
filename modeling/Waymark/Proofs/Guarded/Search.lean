import Waymark.Proofs.Guarded.Split
import Waymark.Proofs.Query

/-!
# Guarded searches

A search that looks up every record and every list of successors by its vertex. A vertex without one is an error here,
and so is a search that is not over when the work it started with is used up. No search gives an error, and what it
finds out is what `Graph.search` does (`Search.Valid.guardedRun_eq`); so queries answer the same
(`Graph.guardedQuery_eq`).
-/

namespace Waymark

namespace Search

/-! ## Steps -/

/-- The record of a vertex, which has to have one. -/
def recordAt (σ : Search) (v : Vertex) : Except Misuse Record :=
  if v < σ.records.size then .ok (σ.record v) else .error (.index v σ.records.size)

/-- Changes the record of a vertex, which has to have one. -/
def updateAt (σ : Search) (v : Vertex) (f : Record → Record) : Except Misuse Search :=
  if v < σ.records.size then .ok (σ.update v f) else .error (.index v σ.records.size)

/-- Puts a vertex on the path. -/
def guardedEnter (g : Graph) (σ : Search) (v : Vertex) : Except Misuse Search := do
  let successors ← g.getSuccessors v
  let τ ← σ.updateAt v fun _ => .entered successors.isEmpty
  return { τ with path := ⟨v, successors⟩ :: σ.path }

/-- Lets the innermost vertex take in the record of `w`. -/
def guardedAbsorb (σ : Search) (w : Vertex) : Except Misuse Search :=
  match σ.path with
  | [] => .ok σ
  | f :: _ => do
    let s ← σ.recordAt w
    σ.updateAt f.vertex (·.absorb s)

/-- Marks the loop that an edge back to `w` closes. -/
def guardedMarkLoop (σ : Search) (w : Vertex) : Except Misuse Search :=
  (spanTo w σ.path).foldlM (fun σ v => σ.updateAt v .markLoop) σ

/-- Looks at the successor `w` of the innermost vertex `v`. -/
def guardedVisit (g : Graph) (final : Vertex) (σ : Search) (v w : Vertex) : Except Misuse Search := do
  let r ← σ.recordAt w
  match r.phase with
  | .unvisited =>
    if w = final then
      let τ ← σ.updateAt w fun _ => .final
      τ.guardedAbsorb w
    else σ.guardedEnter g w
  | .inProgress =>
    let τ ← σ.guardedMarkLoop w
    return { τ with backEdges := (v, w) :: σ.backEdges }
  | .done => σ.guardedAbsorb w

/-- Looks at the next successor of the innermost vertex, or finishes it if there is none. -/
def guardedStep (g : Graph) (final : Vertex) (σ : Search) : Except Misuse Search :=
  match σ.path with
  | [] => .ok σ
  | ⟨v, []⟩ :: path => do
    let _ ← g.getSuccessors v
    let τ ← { σ with path }.updateAt v .finish
    τ.guardedAbsorb v
  | ⟨v, w :: ws⟩ :: path => do
    let _ ← g.getSuccessors v
    guardedVisit g final { σ with path := ⟨v, ws⟩ :: path } v w

/-- Steps until the active path is empty, no more than a number of them. -/
def guardedRun (g : Graph) (final : Vertex) : (bound : Nat) → Search → Except Misuse Search
  | 0, σ => if σ.path = [] then .ok σ else .error .notAnalyzed
  | bound + 1, σ => if σ.path = [] then .ok σ else guardedStep g final σ >>= guardedRun g final bound

variable {g : Graph} {start final : Vertex} {σ : Search} {v w : Vertex}

theorem recordAt_eq (h : v < σ.records.size) : σ.recordAt v = .ok (σ.record v) := if_pos h

theorem updateAt_eq (h : v < σ.records.size) (f : Record → Record) : σ.updateAt v f = .ok (σ.update v f) := if_pos h

theorem getSuccessors_eq (h : v < g.size) : g.getSuccessors v = .ok (g.successors v) := by
  simp [Graph.getSuccessors, Graph.contains, h]

theorem guardedEnter_eq (hg : v < g.size) (hσ : v < σ.records.size) : σ.guardedEnter g v = .ok (σ.enter g v) := by
  simp only [guardedEnter, getSuccessors_eq hg, ok_bind, updateAt_eq hσ]
  rfl

theorem guardedAbsorb_eq (hw : w < σ.records.size) (hpath : ∀ f ∈ σ.path, f.vertex < σ.records.size) :
    σ.guardedAbsorb w = .ok (σ.absorb w) := by
  unfold guardedAbsorb absorb
  cases hp : σ.path with
  | nil => rfl
  | cons f fs =>
    have hf : f.vertex < σ.records.size := hpath f (hp ▸ List.mem_cons_self)
    simp only [recordAt_eq hw, ok_bind, updateAt_eq hf]

theorem guardedMarkLoop_eq (hpath : ∀ f ∈ σ.path, f.vertex < σ.records.size) :
    σ.guardedMarkLoop w = .ok (σ.markLoop w) := by
  have hfold : ∀ (vs : List Vertex) (τ : Search), (∀ v ∈ vs, v < τ.records.size) →
      vs.foldlM (fun σ v => σ.updateAt v .markLoop) τ = .ok (vs.foldl (fun σ v => σ.update v .markLoop) τ) := by
    intro vs
    induction vs with
    | nil => exact fun _ _ => rfl
    | cons v vs ih =>
      intro τ h
      rw [List.forall_mem_cons] at h
      rw [List.foldlM_cons, updateAt_eq h.1, ok_bind, List.foldl_cons]
      exact ih _ (by simpa using h.2)
  refine hfold _ σ fun v hv => ?_
  obtain ⟨f, hf, rfl⟩ := List.mem_map.mp (mem_of_mem_spanTo hv)
  exact hpath f hf

theorem guardedVisit_eq (hg : w < g.size) (hσ : w < σ.records.size) (hpath : ∀ f ∈ σ.path, f.vertex < σ.records.size) :
    guardedVisit g final σ v w = .ok (visit g final σ v w) := by
  unfold guardedVisit visit
  rw [recordAt_eq hσ, ok_bind]
  cases (σ.record w).phase with
  | unvisited =>
    by_cases hw : w = final
    · simp only [hw, if_true]
      rw [← hw, updateAt_eq hσ, ok_bind]
      exact guardedAbsorb_eq (by simpa using hσ) (by simpa using hpath)
    · simp only [hw, if_false]
      exact guardedEnter_eq hg hσ
  | inProgress =>
    simp only [guardedMarkLoop_eq hpath, ok_bind]
    rfl
  | done => exact guardedAbsorb_eq hσ hpath

/-- What is due to a vertex of the active path is a vertex of the graph. -/
theorem Valid.pending_lt (h : σ.Valid g start final) {ws : List Vertex} {fs : List Frame}
    (hp : σ.path = ⟨v, w :: ws⟩ :: fs) : w < g.size := by
  have hmem : (⟨v, w :: ws⟩ : Frame) ∈ σ.survey.path := by
    unfold Search.survey
    rw [hp]
    exact List.mem_cons_self
  exact g.lt_size_of_mem_successors (h.survey.arc hmem List.mem_cons_self).2

/-- **A step looks up no vertex that is not there.** -/
theorem Valid.guardedStep_eq (h : σ.Valid g start final) : guardedStep g final σ = .ok (Search.step g final σ) := by
  have hpath : ∀ f ∈ σ.path, f.vertex < σ.records.size := fun f hf => h.lt_size hf
  unfold guardedStep Search.step
  cases hp : σ.path with
  | nil => rfl
  | cons f fs =>
    obtain ⟨v, pending⟩ := f
    rw [hp, List.forall_mem_cons] at hpath
    obtain ⟨hv, hfs⟩ := hpath
    have hget : g.getSuccessors v = .ok (g.successors v) := getSuccessors_eq (h.size ▸ hv)
    cases pending with
    | nil =>
      have hv' : v < ({ σ with path := fs } : Search).records.size := hv
      simp only [hget, ok_bind, updateAt_eq hv']
      exact guardedAbsorb_eq (by simpa using hv) (by simpa using hfs)
    | cons w ws =>
      have hw := h.pending_lt hp
      simp only [hget, ok_bind]
      exact guardedVisit_eq hw (h.size ▸ hw) (List.forall_mem_cons.mpr ⟨hv, hfs⟩)

/-- **A run looks up no vertex that is not there**, and is over when its work is. -/
theorem Valid.guardedRun_eq (h : σ.Valid g start final) {bound : Nat} (hb : work g σ ≤ bound) :
    guardedRun g final bound σ = .ok (run g final σ) := by
  induction bound generalizing σ with
  | zero =>
    have hp : σ.path = [] := by
      by_contra hne
      exact Nat.not_lt_zero _ (Nat.lt_of_lt_of_le (work_step_lt g final hne) hb)
    rw [guardedRun, if_pos hp, run, if_pos hp]
  | succ bound ih =>
    by_cases hp : σ.path = []
    · rw [guardedRun, if_pos hp, run, if_pos hp]
    · rw [guardedRun, if_neg hp, h.guardedStep_eq, ok_bind, run, if_neg hp]
      exact ih (h.step hp) (Nat.le_of_lt_succ (Nat.lt_of_lt_of_le (work_step_lt g final hp) hb))

/-- Nothing is known, and the search stands at its start. -/
def guardedInitial (g : Graph) (start final : Vertex) : Except Misuse Search :=
  let σ : Search := ⟨Array.replicate g.size .unvisited, [], []⟩
  if start = final then σ.updateAt start fun _ => .final else σ.guardedEnter g start

theorem guardedInitial_eq (hs : start < g.size) : guardedInitial g start final = .ok (initial g start final) := by
  unfold guardedInitial initial
  split
  · exact updateAt_eq (by simpa using hs) _
  · exact guardedEnter_eq hs (by simpa using hs)

end Search

/-! ## Queries -/

namespace Graph

/-- Searches between vertices that the graph has to have. -/
def guardedAnalyze (g : Graph) (start final : Vertex) : Except Misuse Analysis :=
  if !g.contains start then .error (.start start)
  else if !g.contains final then .error (.final final)
  else do
    let σ ← Search.guardedInitial g start final
    let τ ← Search.guardedRun g final (Search.work g σ) σ
    return ⟨start, final, τ.records, τ.backEdges.reverse⟩

/-- What becomes of the trace between two names; the search has to have finished its start. -/
def guardedQuery (g : Graph) (labels : Labels) (start final : String) : Except Misuse (Logged Outcome) :=
  match labels.get? start, labels.get? final with
  | some s, some f => do
    let a ← g.guardedAnalyze s f
    return ⟨← Outcome.ofRecord true true (a.record? s), a.events⟩
  | s?, f? => do
    return ⟨← Outcome.ofRecord s?.isSome f?.isSome none, [.skipped start final s?.isSome f?.isSome]⟩

variable {g : Graph} {s f : Vertex}

theorem guardedAnalyze_eq (g : Graph) (s f : Vertex) : g.guardedAnalyze s f = g.analyze s f := by
  unfold guardedAnalyze analyze
  by_cases hs : s < g.size
  · by_cases hf : f < g.size
    · have hrun := (Search.initial_valid hs hf).guardedRun_eq (Nat.le_refl _)
      simp only [contains, hs, hf, Search.guardedInitial_eq hs, ok_bind, hrun]
      rfl
    · simp [contains, hs, hf]
  · simp [contains, hs]

/-- **A query looks up nothing that is not there**, whatever the names stand for. -/
theorem guardedQuery_eq (g : Graph) (labels : Labels) (start final : String) :
    g.guardedQuery labels start final = g.query labels start final := by
  unfold guardedQuery query
  cases hs : labels.get? start with
  | none => cases labels.get? final <;> rfl
  | some s =>
    cases hf : labels.get? final with
    | none => rfl
    | some f =>
      simp only [guardedAnalyze_eq]
      cases ha : g.analyze s f with
      | error e => rfl
      | ok a =>
        obtain ⟨hsg, hfg, rfl⟩ := analyze_eq_ok_iff.mp ha
        rw [ok_bind, ok_bind, search_record?_start hsg hfg]

end Graph

end Waymark
