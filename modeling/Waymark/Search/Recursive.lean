import Waymark.Search.Traversal

/-!
# Recursive traversal

The search told as a recursion on vertices, where the calls that have not returned are the active path. A vertex is
visited (`Graph.visit`) by looking at its successors one after the other (`Graph.visitEach`), and a successor that was
not met yet is visited in its turn (`Graph.look`).

The recursion ends because every vertex that is visited is one less to be met. What a call returns says so in its type:
after a visit there are fewer vertices that were not met (`unmet`), and never more after a look. The equations of the
recursion, without these bounds, are `Graph.visit_final`, `Graph.visit_of_ne` and those that follow them.

What is written into the records is spelled out here, and not taken over from the search.
-/

namespace Waymark

/-! ## Changes of records -/

/-- Lets `v` take in the record of `w`: what `w` reaches is reached from `v`, what avoids the final vertex from `w` avoids
it from `v`, and so does going on to `w` if `w` was not seen to reach it. -/
def takeIn (records : Array Record) (v w : Vertex) : Array Record :=
  let s := records.getD w .outside
  records.modify v fun r =>
    { r with
      reaches := r.reaches || s.reaches
      avoids := r.avoids || (if s.reaches then s.avoids else true)
      loops := r.loops || s.loops }

/-- Marks the loop from the innermost vertex of a path back to `w`. -/
def markPath (w : Vertex) : (path : List Vertex) → Array Record → Array Record
  | [], records => records
  | v :: path, records =>
    let records := records.modify v fun r => { r with loops := true }
    if v = w then records else markPath w path records

/-! ## The vertices that were not met -/

/-- The number of vertices that were not met. -/
def unmet (records : Array Record) : Nat :=
  (List.range records.size).countP fun v => (records.getD v .outside).phase = .unvisited

theorem getD_modify (records : Array Record) (v w : Vertex) (f : Record → Record) :
    (records.modify v f).getD w .outside =
      if v = w ∧ w < records.size then f (records.getD w .outside) else records.getD w .outside :=
  Search.record_update ⟨records, [], []⟩ v w f

/-- A change that never takes back that a vertex was met leaves no more to be met. -/
theorem unmet_modify_le (records : Array Record) (v : Vertex) {f : Record → Record}
    (hf : ∀ r : Record, (f r).phase = .unvisited → r.phase = .unvisited) :
    unmet (records.modify v f) ≤ unmet records := by
  unfold unmet
  rw [Array.size_modify]
  refine List.countP_mono_left fun u _ hu => ?_
  rw [getD_modify] at hu
  grind

/-- A vertex that is met now is one less to be met. -/
theorem unmet_modify_lt {records : Array Record} {v : Vertex} {r : Record}
    (hv : (records.getD v .outside).phase = .unvisited) (hr : r.phase ≠ .unvisited) :
    unmet (records.modify v fun _ => r) < unmet records := by
  have hlt : v < records.size :=
    Search.lt_size_of_phase (σ := ⟨records, [], []⟩) fun hd => by cases hv.symm.trans hd
  have hmet : ((records.modify v fun _ => r).getD v .outside).phase ≠ .unvisited := by
    rw [getD_modify, if_pos ⟨rfl, hlt⟩]
    exact hr
  have hcount : 0 < (List.range records.size).count v := List.count_pos_iff.mpr (List.mem_range.mpr hlt)
  have hle : unmet (records.modify v fun _ => r) + (List.range records.size).count v ≤ unmet records := by
    unfold unmet
    rw [Array.size_modify]
    refine countP_add_count_le _ (fun u hu => ?_) (decide_eq_true hv) (decide_eq_false hmet)
    rw [getD_modify] at hu
    grind
  omega

theorem unmet_takeIn_le (records : Array Record) (v w : Vertex) : unmet (takeIn records v w) ≤ unmet records :=
  unmet_modify_le records v fun _ h => h

theorem unmet_markPath_le (w : Vertex) (path : List Vertex) (records : Array Record) :
    unmet (markPath w path records) ≤ unmet records := by
  induction path generalizing records with
  | nil => exact Nat.le_refl _
  | cons v path ih =>
    have hmark : unmet (records.modify v fun r => { r with loops := true }) ≤ unmet records :=
      unmet_modify_le records v fun _ h => h
    unfold markPath
    simp only
    split
    · exact hmark
    · exact Nat.le_trans (ih _) hmark

namespace Graph

/-! ## Visits -/

mutual

/-- Visits a vertex that was not met: the final one is done at once, any other after all its successors. -/
def visit (g : Graph) (final : Vertex) (path : List Vertex) (records : Array Record) (v : Vertex)
    (hv : (records.getD v .outside).phase = .unvisited) : { after : Array Record // unmet after < unmet records } :=
  if v = final then ⟨records.modify v fun _ => ⟨true, false, false, .done⟩, unmet_modify_lt hv (by simp)⟩
  else
    let opened := records.modify v fun _ => ⟨false, g.isSink v, false, .inProgress⟩
    have hopened : unmet opened < unmet records := unmet_modify_lt hv (by simp)
    let searched := g.visitEach final path opened v (g.successors v)
    have hdone : unmet (searched.val.modify v fun r => { r with phase := .done }) ≤ unmet searched.val :=
      unmet_modify_le _ v fun _ h => by simp at h
    ⟨searched.val.modify v fun r => { r with phase := .done },
      Nat.lt_of_le_of_lt (Nat.le_trans hdone searched.property) hopened⟩
termination_by (unmet records, 0)

/-- Looks at the successors of `v`, whose callers are `path`, one after the other. -/
def visitEach (g : Graph) (final : Vertex) (path : List Vertex) (records : Array Record) (v : Vertex) :
    (ws : List Vertex) → { after : Array Record // unmet after ≤ unmet records }
  | [] => ⟨records, Nat.le_refl _⟩
  | w :: ws =>
    let looked := g.look final path records v w
    let rest := g.visitEach final path looked.val v ws
    ⟨rest.val, Nat.le_trans rest.property looked.property⟩
termination_by ws => (unmet records, ws.length + 2)
decreasing_by
  · exact .right _ (by simp)
  · exact Prod.Lex.right' _ looked.property (by simp)

/-- Looks at the successor `w` of `v`: a new one is visited and taken in, one that is done is taken in, and one on the
active path closes a loop. -/
def look (g : Graph) (final : Vertex) (path : List Vertex) (records : Array Record) (v w : Vertex) :
    { after : Array Record // unmet after ≤ unmet records } :=
  match hw : (records.getD w .outside).phase with
  | .unvisited =>
    let visited := g.visit final (v :: path) records w hw
    ⟨takeIn visited.val v w, Nat.le_trans (unmet_takeIn_le ..) (Nat.le_of_lt visited.property)⟩
  | .inProgress => ⟨markPath w (v :: path) records, unmet_markPath_le ..⟩
  | .done => ⟨takeIn records v w, unmet_takeIn_le ..⟩
termination_by (unmet records, 1)

end

/-- Nothing is known of any vertex before a search. -/
theorem phase_replicate_unvisited {n : Nat} {v : Vertex} (hv : v < n) :
    ((Array.replicate n Record.unvisited).getD v .outside).phase = .unvisited := by
  simp [Array.getD, hv, Record.unvisited]

/-- The records after a visit of the start vertex. -/
def visitAll (g : Graph) {start : Vertex} (hs : start < g.size) (final : Vertex) : Array Record :=
  (g.visit final [] (Array.replicate g.size .unvisited) start (phase_replicate_unvisited hs)).val

/-! ## The equations of the recursion -/

section Equations

variable (g : Graph) {final v w : Vertex} (path : List Vertex) {records : Array Record}

theorem visit_final (hv : (records.getD final .outside).phase = .unvisited) :
    (g.visit final path records final hv).val = records.modify final fun _ => ⟨true, false, false, .done⟩ := by
  rw [visit, if_pos rfl]

theorem visit_of_ne (hne : v ≠ final) (hv : (records.getD v .outside).phase = .unvisited) :
    (g.visit final path records v hv).val =
      (g.visitEach final path (records.modify v fun _ => ⟨false, g.isSink v, false, .inProgress⟩) v
        (g.successors v)).val.modify v fun r => { r with phase := .done } := by
  rw [visit, if_neg hne]

theorem look_of_unvisited (hw : (records.getD w .outside).phase = .unvisited) :
    (g.look final path records v w).val = takeIn (g.visit final (v :: path) records w hw).val v w := by
  rw [look]
  split
  next => rfl
  next h => rw [hw] at h; cases h
  next h => rw [hw] at h; cases h

theorem look_of_inProgress (hw : (records.getD w .outside).phase = .inProgress) :
    (g.look final path records v w).val = markPath w (v :: path) records := by
  rw [look]
  split
  next h => rw [hw] at h; cases h
  next => rfl
  next h => rw [hw] at h; cases h

theorem look_of_done (hw : (records.getD w .outside).phase = .done) :
    (g.look final path records v w).val = takeIn records v w := by
  rw [look]
  split
  next h => rw [hw] at h; cases h
  next h => rw [hw] at h; cases h
  next => rfl

theorem visitEach_nil : (g.visitEach final path records v []).val = records := by
  rw [visitEach]

theorem visitEach_cons (ws : List Vertex) :
    (g.visitEach final path records v (w :: ws)).val =
      (g.visitEach final path (g.look final path records v w).val v ws).val := by
  rw [visitEach]

end Equations

end Graph

end Waymark
