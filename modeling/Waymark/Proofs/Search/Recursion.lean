import Mathlib.Logic.Relation
import Waymark.Proofs.Search.Exact
import Waymark.Search.Recursive

/-!
# The traversal is the recursion

A search keeps the active path itself, where the recursion leaves it to the calls that have not returned. A call of the
recursion is a stretch of steps (`Search.Steps`): they take the search from where the call begins to where it returns,
with the records that it returns and the active path as it was. This is shown for the three kinds of calls together
(`Search.steps_enter`, `Search.steps_visitEach`, `Search.steps_look`), along the recursion. So a search leaves the
records that the recursion returns for its start (`Graph.analyze_records_eq_visitAll`).
-/

namespace Waymark

open Relation

namespace Search

variable {g : Graph} {final v w : Vertex} {σ τ : Search} {records : Array Record} {ws : List Vertex} {fs : List Frame}
  {edges : List (Vertex × Vertex)}

/-! ## Stretches of steps -/

/-- Some number of steps leads from one state to another. -/
def Steps (g : Graph) (final : Vertex) : Search → Search → Prop :=
  ReflTransGen fun σ τ => τ = step g final σ

/-- A run goes through all the states that steps lead to. -/
theorem Steps.run_eq (h : Steps g final σ τ) : run g final σ = run g final τ := by
  induction h with
  | refl => rfl
  | @tail ρ τ _ hstep ih =>
    rw [ih, hstep]
    by_cases hp : ρ.path = []
    · have hstay : step g final ρ = ρ := by unfold step; rw [hp]
      rw [hstay]
    · rw [run, if_neg hp]

/-- The innermost vertex takes in a finished successor. -/
theorem absorb_cons : absorb ⟨records, ⟨v, ws⟩ :: fs, edges⟩ w = ⟨takeIn records v w, ⟨v, ws⟩ :: fs, edges⟩ := rfl

/-- Marking a loop on the path of a search is marking it on the path of its vertices. -/
theorem markLoop_eq_markPath :
    markLoop ⟨records, fs, edges⟩ w = ⟨markPath w (fs.map (·.vertex)) records, fs, edges⟩ := by
  have hfold : ∀ (path : List Frame) (records : Array Record),
      (spanTo w path).foldl (fun σ v => σ.update v .markLoop) ⟨records, fs, edges⟩ =
        (⟨markPath w (path.map (·.vertex)) records, fs, edges⟩ : Search) := fun path => by
    induction path with
    | nil => exact fun _ => rfl
    | cons f path ih =>
      intro records
      unfold spanTo
      simp only [List.map_cons, markPath]
      split
      next heq => rw [← heq]; rfl
      next => exact ih (records.modify f.vertex .markLoop)
  exact hfold fs records

theorem visit_final (hw : (records.getD final .outside).phase = .unvisited) :
    visit g final ⟨records, fs, edges⟩ v final =
      absorb ⟨records.modify final fun _ => ⟨true, false, false, .done⟩, fs, edges⟩ final := by
  simp only [visit, record, hw, if_true]
  rfl

theorem visit_of_unvisited (hne : w ≠ final) (hw : (records.getD w .outside).phase = .unvisited) :
    visit g final ⟨records, fs, edges⟩ v w = enter g ⟨records, fs, edges⟩ w := by
  simp only [visit, record, hw, hne, if_false]

theorem visit_of_inProgress (hw : (records.getD w .outside).phase = .inProgress) :
    visit g final ⟨records, fs, edges⟩ v w = ⟨markPath w (fs.map (·.vertex)) records, fs, (v, w) :: edges⟩ := by
  simp only [visit, record, hw, markLoop_eq_markPath]

theorem visit_of_done (hw : (records.getD w .outside).phase = .done) :
    visit g final ⟨records, fs, edges⟩ v w = absorb ⟨records, fs, edges⟩ w := by
  simp only [visit, record, hw]

theorem run_of_path_eq_nil (h : σ.path = []) : run g final σ = σ := by
  rw [run, if_pos h]

/-! ## Calls are stretches of steps -/

mutual

/-- A visit of a vertex other than the final one begins when the search enters it, and returns when the vertex below it
on the path, if there is one, is about to absorb it. -/
theorem steps_enter (records : Array Record) {w : Vertex} (hne : w ≠ final)
    (hw : (records.getD w .outside).phase = .unvisited) (fs : List Frame) (edges : List (Vertex × Vertex)) :
    ∃ edges', Steps g final (enter g ⟨records, fs, edges⟩ w)
      (absorb ⟨(g.visit final (fs.map (·.vertex)) records w hw).val, fs, edges'⟩ w) := by
  obtain ⟨edges', hsteps⟩ :=
    steps_visitEach (records.modify w fun _ => .entered (g.isSink w)) w (g.successors w) fs edges
  rw [Graph.visit_of_ne g _ hne]
  -- with nothing due to it any more, the next step finishes `w` and takes it off the path
  exact ⟨edges', hsteps.tail rfl⟩
termination_by (unmet records, 0)
decreasing_by exact .left _ _ (unmet_modify_lt hw (by simp [Record.entered]))

/-- The successors of the innermost vertex are looked at until none is due. -/
theorem steps_visitEach (records : Array Record) (v : Vertex) (ws : List Vertex) (fs : List Frame)
    (edges : List (Vertex × Vertex)) :
    ∃ edges', Steps g final ⟨records, ⟨v, ws⟩ :: fs, edges⟩
      ⟨(g.visitEach final (fs.map (·.vertex)) records v ws).val, ⟨v, []⟩ :: fs, edges'⟩ := by
  match ws with
  | [] =>
    rw [Graph.visitEach_nil]
    exact ⟨edges, .refl⟩
  | w :: ws =>
    obtain ⟨edges₁, hlook⟩ := steps_look records v w ws fs edges
    have hle := (g.look final (fs.map (·.vertex)) records v w).property
    obtain ⟨edges₂, hrest⟩ := steps_visitEach (g.look final (fs.map (·.vertex)) records v w).val v ws fs edges₁
    rw [Graph.visitEach_cons]
    exact ⟨edges₂, .head rfl (hlook.trans hrest)⟩
termination_by (unmet records, ws.length + 2)
decreasing_by
  · exact .right _ (by simp)
  · exact Prod.Lex.right' _ hle (by simp)

/-- A look at the successor `w` of the innermost vertex. -/
theorem steps_look (records : Array Record) (v w : Vertex) (ws : List Vertex) (fs : List Frame)
    (edges : List (Vertex × Vertex)) :
    ∃ edges', Steps g final (visit g final ⟨records, ⟨v, ws⟩ :: fs, edges⟩ v w)
      ⟨(g.look final (fs.map (·.vertex)) records v w).val, ⟨v, ws⟩ :: fs, edges'⟩ := by
  cases hw : (records.getD w .outside).phase with
  | unvisited =>
    rw [Graph.look_of_unvisited g _ hw]
    by_cases hne : w = final
    · subst hne
      rw [visit_final hw, absorb_cons, Graph.visit_final]
      exact ⟨edges, .refl⟩
    · obtain ⟨edges', hsteps⟩ := steps_enter records hne hw (⟨v, ws⟩ :: fs) edges
      rw [absorb_cons] at hsteps
      rw [visit_of_unvisited hne hw]
      exact ⟨edges', hsteps⟩
  | inProgress =>
    rw [Graph.look_of_inProgress g _ hw, visit_of_inProgress hw]
    exact ⟨(v, w) :: edges, .refl⟩
  | done =>
    rw [Graph.look_of_done g _ hw, visit_of_done hw, absorb_cons]
    exact ⟨edges, .refl⟩
termination_by (unmet records, 1)

end

end Search

/-! ## Whole searches -/

namespace Graph

variable {g : Graph} {start final : Vertex}

/-- A search leaves the records that the recursion returns. -/
theorem records_search (hs : start < g.size) (final : Vertex) :
    (g.search start final).records = g.visitAll hs final := by
  unfold search visitAll Search.initial
  by_cases hne : start = final
  · subst hne
    rw [visit_final]
    simp only [if_true]
    rw [Search.run_of_path_eq_nil rfl]
    rfl
  · simp only [hne, if_false]
    obtain ⟨edges, hsteps⟩ := Search.steps_enter (g := g) (Array.replicate g.size .unvisited) hne
      (phase_replicate_unvisited hs) [] []
    rw [hsteps.run_eq, Search.run_of_path_eq_nil rfl]
    rfl

/-- **The traversal is the recursion**: a search on an explicit path leaves the records of every vertex as the recursive
visit of its start does. -/
theorem analyze_records_eq_visitAll (hs : start < g.size) (hf : final < g.size) :
    ∃ a, g.analyze start final = .ok a ∧ a.records = g.visitAll hs final :=
  ⟨g.search start final, analyze_eq_ok_iff.mpr ⟨hs, hf, rfl⟩, records_search hs final⟩

/-- A loop closed two calls below the start, a finished vertex that is absorbed a second time, and a vertex that is not
met. -/
theorem analyze_records_eq_visitAll_nested :
    let g : Graph := ⟨#[[1, 2], [2, 3], [1], [], [0, 4]], by decide⟩
    ∃ hs : 0 < g.size, 3 < g.size ∧ ∃ a, g.analyze 0 3 = .ok a ∧ a.records = g.visitAll hs 3 ∧
      g.visitAll hs 3 = #[⟨true, true, true, .done⟩, ⟨true, true, true, .done⟩, ⟨false, false, true, .done⟩,
        ⟨true, false, false, .done⟩, ⟨false, false, false, .unvisited⟩] := by
  intro g
  have hs : 0 < g.size := by decide
  have hf : 3 < g.size := by decide
  obtain ⟨a, ha, hrecords⟩ := analyze_records_eq_visitAll hs hf
  have hfound : (g.analyze 0 3).map (·.records) = .ok #[⟨true, true, true, .done⟩, ⟨true, true, true, .done⟩,
      ⟨false, false, true, .done⟩, ⟨true, false, false, .done⟩, ⟨false, false, false, .unvisited⟩] := by decide +kernel
  rw [ha] at hfound
  exact ⟨hs, hf, a, ha, hrecords, hrecords ▸ Except.ok.inj hfound⟩

end Graph

end Waymark
