import Waymark.Graph.Basic
import Waymark.Search.Record

/-!
# Depth-first traversal

A search for a final vertex as a machine: its state holds a record for each vertex and the active path, innermost
vertex first, and `Search.step` looks at one successor of the innermost vertex or finishes it.

- The final vertex is finished as soon as it is met. Its own successors are never looked at.
- A successor on the active path closes a loop: every vertex from the innermost one back to it is marked.
- A finished successor is absorbed; its record is not computed again.

Every step uses up some of the work that is left (`Search.work_step_lt`): a unit for each vertex that is not
finished and one for each of its successors that was not looked at. So `Search.run` ends.
-/

namespace Waymark

/-- Where less is counted and `w` is not counted any more, the count has shrunk by as often as `w` occurs. -/
theorem countP_add_count_le {α : Type} [BEq α] [LawfulBEq α] {p q : α → Bool} {w : α} (l : List α)
    (h : ∀ a, q a = true → p a = true) (hp : p w = true) (hq : q w = false) :
    l.countP q + l.count w ≤ l.countP p := by
  rw [List.countP_eq_countP_filter_add l p (· == w), List.countP_filter, List.countP_filter, Nat.add_comm,
    List.count_eq_countP]
  refine Nat.add_le_add (List.countP_mono_left fun a _ ha => ?_) (List.countP_mono_left fun a _ ha => ?_)
  · rw [eq_of_beq ha, hp, beq_self_eq_true]
    rfl
  · have hne : (a == w) = false := by
      refine Bool.eq_false_iff.mpr fun heq => ?_
      rw [eq_of_beq heq, hq] at ha
      cases ha
    rw [h a ha, hne]
    rfl

/-- A vertex on the active path, with the successors that were not looked at yet. -/
structure Frame where
  vertex : Vertex
  pending : List Vertex
  deriving DecidableEq

/-- The vertices of a path from its innermost one back to `w`. -/
def spanTo (w : Vertex) : List Frame → List Vertex
  | [] => []
  | f :: fs => if f.vertex = w then [w] else f.vertex :: spanTo w fs

/-- The state of a search: the records, the active path, and the edges that closed a loop, latest first. -/
structure Search where
  records : Array Record
  path : List Frame
  backEdges : List (Vertex × Vertex)
  deriving DecidableEq

namespace Search

/-! ## Records -/

/-- The record of a vertex. -/
def record (σ : Search) (v : Vertex) : Record := σ.records.getD v .outside

/-- Changes the record of a vertex. -/
def update (σ : Search) (v : Vertex) (f : Record → Record) : Search :=
  { σ with records := σ.records.modify v f }

@[simp] theorem size_records_update (σ : Search) (v : Vertex) (f : Record → Record) :
    (σ.update v f).records.size = σ.records.size := by
  simp [update]

@[simp] theorem path_update (σ : Search) (v : Vertex) (f : Record → Record) : (σ.update v f).path = σ.path := rfl

/-- An update changes one record, if the vertex has one. -/
theorem record_update (σ : Search) (v w : Vertex) (f : Record → Record) :
    (σ.update v f).record w = if v = w ∧ w < σ.records.size then f (σ.record w) else σ.record w := by
  unfold record update
  by_cases hw : w < σ.records.size
  · simp only [Array.getD, Array.size_modify, hw, dite_true, and_true]
    rw [Array.getInternal_eq_getElem, Array.getElem_modify]
    rfl
  · simp [Array.getD, hw]

/-- Vertices without a record count as finished. -/
theorem lt_size_of_phase {σ : Search} {v : Vertex} (h : (σ.record v).phase ≠ .done) : v < σ.records.size := by
  refine Nat.lt_of_not_le fun hle => h ?_
  simp [record, Array.getD, Nat.not_lt.mpr hle, Record.outside]

/-! ## Steps -/

/-- Puts a vertex on the path. -/
def enter (g : Graph) (σ : Search) (v : Vertex) : Search :=
  { σ.update v fun _ => .entered (g.isSink v) with path := ⟨v, g.successors v⟩ :: σ.path }

/-- Lets the innermost vertex take in the record of `w`. -/
def absorb (σ : Search) (w : Vertex) : Search :=
  match σ.path with
  | [] => σ
  | f :: _ =>
    let s := σ.record w
    σ.update f.vertex (·.absorb s)

/-- Marks the loop that an edge back to `w` closes. -/
def markLoop (σ : Search) (w : Vertex) : Search :=
  (spanTo w σ.path).foldl (fun σ v => σ.update v .markLoop) σ

/-- Looks at the successor `w` of the innermost vertex `v`. -/
def visit (g : Graph) (final : Vertex) (σ : Search) (v w : Vertex) : Search :=
  match (σ.record w).phase with
  | .unvisited => if w = final then (σ.update w fun _ => .final).absorb w else σ.enter g w
  | .inProgress => { σ.markLoop w with backEdges := (v, w) :: σ.backEdges }
  | .done => σ.absorb w

/-- Looks at the next successor of the innermost vertex, or finishes it if there is none. -/
def step (g : Graph) (final : Vertex) (σ : Search) : Search :=
  match σ.path with
  | [] => σ
  | ⟨v, []⟩ :: path => ({ σ with path }.update v .finish).absorb v
  | ⟨v, w :: ws⟩ :: path => visit g final { σ with path := ⟨v, ws⟩ :: path } v w

/-! ## The work left -/

/-- The vertices below `n`, each once for itself and once for each of its successors. -/
def tasks (g : Graph) (n : Nat) : List Vertex :=
  (List.range n).flatMap fun v => List.replicate ((g.successors v).length + 1) v

theorem le_count_tasks (g : Graph) {v n : Nat} (h : v < n) : (g.successors v).length + 1 ≤ (tasks g n).count v := by
  rw [← List.replicate_sublist_iff, tasks, List.flatMap_def]
  exact List.sublist_flatten_of_mem (List.mem_map.mpr ⟨v, List.mem_range.mpr h, rfl⟩)

/-- The work that the vertices are to the search before they are met. -/
def tasksLeft (g : Graph) (σ : Search) : Nat :=
  (tasks g σ.records.size).countP fun v => (σ.record v).phase = .unvisited

/-- The work on the active path: its vertices, and their successors that were not looked at. -/
def pathWork (σ : Search) : Nat := σ.path.length + (σ.path.flatMap (·.pending)).length

/-- The work left: what was not met, and what is left of the active path. -/
def work (g : Graph) (σ : Search) : Nat := tasksLeft g σ + σ.pathWork

/-- Records of the same phases are the same work. -/
theorem work_congr {g : Graph} {σ τ : Search} (hs : τ.records.size = σ.records.size) (hp : τ.path = σ.path)
    (hc : ∀ v, (τ.record v).phase = (σ.record v).phase) : work g τ = work g σ := by
  simp [work, tasksLeft, pathWork, hs, hp, hc]

/-- A change that keeps phases keeps them at every vertex. -/
theorem phase_update_of_keeps (σ : Search) (v w : Vertex) {f : Record → Record} (hf : ∀ r, (f r).phase = r.phase) :
    ((σ.update v f).record w).phase = (σ.record w).phase := by
  rw [record_update]
  split
  · exact hf _
  · rfl

theorem work_absorb (g : Graph) (σ : Search) (w : Vertex) : work g (σ.absorb w) = work g σ := by
  unfold absorb
  split
  · rfl
  · exact work_congr (by simp) (by simp) fun v => phase_update_of_keeps _ _ _ fun _ => rfl

theorem work_markLoop (g : Graph) (σ : Search) (w : Vertex) : work g (σ.markLoop w) = work g σ := by
  unfold markLoop
  generalize spanTo w σ.path = vs
  induction vs generalizing σ with
  | nil => rfl
  | cons v vs ih =>
    rw [List.foldl_cons, ih]
    exact work_congr (by simp) (by simp) fun u => phase_update_of_keeps _ _ _ fun _ => rfl

/-- An update of a vertex that was not met leaves it out of the work, if it is met now. -/
theorem tasksLeft_update {g : Graph} {σ : Search} {w : Vertex} {r : Record} (hw : (σ.record w).phase = .unvisited)
    (hr : r.phase ≠ .unvisited) :
    tasksLeft g (σ.update w fun _ => r) + ((g.successors w).length + 1) ≤ tasksLeft g σ := by
  have hlt : w < σ.records.size := lt_size_of_phase (by simp [hw])
  have hcount := le_count_tasks g hlt
  have hle : tasksLeft g (σ.update w fun _ => r) + (tasks g σ.records.size).count w ≤ tasksLeft g σ := by
    unfold tasksLeft
    rw [size_records_update]
    refine countP_add_count_le _ (fun v hv => ?_) (by simp [hw]) (by simp [record_update, hlt, hr])
    rw [record_update] at hv
    grind
  omega

/-- A vertex that is finished was met before. -/
theorem tasksLeft_finish (g : Graph) (σ : Search) (v : Vertex) : tasksLeft g (σ.update v .finish) ≤ tasksLeft g σ := by
  unfold tasksLeft
  rw [size_records_update]
  refine List.countP_mono_left fun u _ hu => ?_
  rw [record_update] at hu
  split at hu
  · simp at hu
  · exact hu

theorem work_visit_le (g : Graph) (final : Vertex) (σ : Search) (v w : Vertex) :
    work g (visit g final σ v w) ≤ work g σ := by
  unfold visit
  split
  next hw =>
    split
    · have := tasksLeft_update (g := g) (r := .final) hw (by simp [Record.final])
      rw [work_absorb]
      simp only [work, pathWork, path_update]
      omega
    · have := tasksLeft_update (g := g) (r := .entered (g.isSink w)) hw (by simp [Record.entered])
      have hleft : tasksLeft g (σ.enter g w) = tasksLeft g (σ.update w fun _ => .entered (g.isSink w)) := rfl
      simp only [work, hleft]
      simp only [enter, pathWork, List.length_cons, List.flatMap_cons, List.length_append]
      omega
  · exact Nat.le_of_eq (work_markLoop g σ w)
  · exact Nat.le_of_eq (work_absorb g σ w)

/-- Every step of a search that is not over does some of the work. -/
theorem work_step_lt (g : Graph) (final : Vertex) {σ : Search} (h : σ.path ≠ []) :
    work g (step g final σ) < work g σ := by
  unfold step
  split
  · contradiction
  next v path hp =>
    have hleft : tasksLeft g ({ σ with path }.update v .finish) ≤ tasksLeft g σ := tasksLeft_finish g { σ with path } v
    rw [work_absorb]
    simp only [work, pathWork, path_update, hp, List.length_cons, List.flatMap_cons, List.length_append]
    omega
  next v w ws path hp =>
    refine Nat.lt_of_le_of_lt (work_visit_le g final _ v w) ?_
    have hleft : tasksLeft g { σ with path := ⟨v, ws⟩ :: path } = tasksLeft g σ := rfl
    simp only [work, hleft, pathWork, hp, List.length_cons, List.flatMap_cons, List.length_append]
    omega

/-! ## Whole searches -/

/-- Steps until the active path is empty. -/
def run (g : Graph) (final : Vertex) (σ : Search) : Search :=
  if σ.path = [] then σ else run g final (step g final σ)
termination_by work g σ
decreasing_by exact work_step_lt g final ‹_›

/-- Nothing is known, and the search stands at its start. -/
def initial (g : Graph) (start final : Vertex) : Search :=
  let σ : Search := ⟨Array.replicate g.size .unvisited, [], []⟩
  if start = final then σ.update start fun _ => .final else σ.enter g start

end Search

end Waymark
