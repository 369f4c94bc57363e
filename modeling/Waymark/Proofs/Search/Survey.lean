import Mathlib.Data.List.Chain
import Mathlib.Logic.Function.Basic
import Mathlib.Logic.Relation
import Waymark.Graph.Walk
import Waymark.Search.Traversal

/-!
# A search as a sequence of small acts

`Search.step` does up to two things at once: a vertex that is finished is absorbed by its parent in the same step. Here
a search is cut into acts that each change one record (`Survey.Act`). For this a vertex stays due to its parent while
it is being visited, so that leaving it uncovers it again, finished and ready to be absorbed.

Every act keeps `Survey.Valid`: the active path holds the vertices in progress, each once and each due to the next, from
the start on, and never the final vertex (`Survey.Act.valid`). What a search finds out is then shown by looking at five
kinds of acts (`Waymark.Proofs.Search.Exact`).
-/

namespace Waymark

open Relation

/-! ## Acts -/

/-- What is known about every vertex, and the active path with the successors that are due, the one being visited
included. -/
structure Survey where
  record : Vertex → Record
  path : List Frame

namespace Survey

/-- Notes a loop at each of some vertices. -/
def markAll (record : Vertex → Record) (vs : List Vertex) : Vertex → Record :=
  fun u => if u ∈ vs then (record u).markLoop else record u

/-- One thing that a search may do. -/
inductive Act (g : Graph) (final : Vertex) : Survey → Survey → Prop where
  /-- The next successor is new, and is visited. -/
  | enter {r : Vertex → Record} {v w : Vertex} {ws : List Vertex} {fs : List Frame}
      (hw : (r w).phase = .unvisited) (hf : w ≠ final) :
      Act g final ⟨r, ⟨v, w :: ws⟩ :: fs⟩
        ⟨Function.update r w (.entered (g.isSink w)), ⟨w, g.successors w⟩ :: ⟨v, w :: ws⟩ :: fs⟩
  /-- The next successor is the final vertex, met for the first time. -/
  | settle {r : Vertex → Record} {v : Vertex} {ws : List Vertex} {fs : List Frame}
      (hw : (r final).phase = .unvisited) :
      Act g final ⟨r, ⟨v, final :: ws⟩ :: fs⟩ ⟨Function.update r final .final, ⟨v, final :: ws⟩ :: fs⟩
  /-- The next successor is finished, and is absorbed. -/
  | absorb {r : Vertex → Record} {v w : Vertex} {ws : List Vertex} {fs : List Frame}
      (hw : (r w).phase = .done) :
      Act g final ⟨r, ⟨v, w :: ws⟩ :: fs⟩ ⟨Function.update r v ((r v).absorb (r w)), ⟨v, ws⟩ :: fs⟩
  /-- The next successor lies on the active path: a loop is closed. -/
  | back {r : Vertex → Record} {v w : Vertex} {ws : List Vertex} {fs : List Frame}
      (hw : (r w).phase = .inProgress) :
      Act g final ⟨r, ⟨v, w :: ws⟩ :: fs⟩ ⟨markAll r (spanTo w (⟨v, w :: ws⟩ :: fs)), ⟨v, ws⟩ :: fs⟩
  /-- No successor is due any more. -/
  | leave {r : Vertex → Record} {v : Vertex} {fs : List Frame} :
      Act g final ⟨r, ⟨v, []⟩ :: fs⟩ ⟨Function.update r v (r v).finish, fs⟩

/-- The vertices of the active path, innermost first. -/
def active (S : Survey) : List Vertex := S.path.map (·.vertex)

@[simp] theorem phase_markAll (r : Vertex → Record) (vs : List Vertex) (u : Vertex) :
    (markAll r vs u).phase = (r u).phase := by
  unfold markAll
  split <;> rfl

@[simp] theorem phase_update_absorb (r : Vertex → Record) (v u : Vertex) (s : Record) :
    (Function.update r v ((r v).absorb s) u).phase = (r u).phase := by
  by_cases hu : u = v
  · subst hu; simp
  · rw [Function.update_of_ne hu]

theorem markAll_of_mem {r : Vertex → Record} {vs : List Vertex} {u : Vertex} (h : u ∈ vs) :
    markAll r vs u = (r u).markLoop := if_pos h

theorem markAll_of_notMem {r : Vertex → Record} {vs : List Vertex} {u : Vertex} (h : u ∉ vs) :
    markAll r vs u = r u := if_neg h

end Survey

/-- A span lies on its path. -/
theorem mem_of_mem_spanTo {w u : Vertex} {fs : List Frame} (h : u ∈ spanTo w fs) : u ∈ fs.map (·.vertex) := by
  induction fs with
  | nil => cases h
  | cons f fs ih =>
    unfold spanTo at h
    split at h
    next hf => simp [List.mem_singleton.mp h, hf]
    next =>
      rcases List.mem_cons.mp h with rfl | h
      · simp
      · exact List.mem_cons_of_mem _ (ih h)

/-- A span depends on the vertices of its path alone. -/
theorem spanTo_congr {w : Vertex} : ∀ {fs gs : List Frame}, fs.map (·.vertex) = gs.map (·.vertex) →
    spanTo w fs = spanTo w gs
  | [], [], _ => rfl
  | f :: fs, k :: gs, h => by
    simp only [List.map_cons, List.cons.injEq] at h
    simp only [spanTo, h.1, spanTo_congr h.2]

/-! ## What every act keeps -/

namespace Survey

/-- A state that a search from `start` may be in. -/
structure Valid (g : Graph) (start final : Vertex) (S : Survey) : Prop where
  inProgress : ∀ v, v ∈ S.active ↔ (S.record v).phase = .inProgress
  nodup : S.active.Nodup
  final : (S.record final).phase = .unvisited ∨ S.record final = .final
  due : ∀ f ∈ S.path, f.pending <:+ g.successors f.vertex
  /-- Every vertex but the outermost one is the next due successor of its parent. -/
  linked : S.path.IsChain fun f p => p.pending.head? = some f.vertex
  bottom : S.path ≠ [] → S.active.getLast? = some start
  ended : S.path = [] → (S.record start).phase = .done
  outside : ∀ v, g.size ≤ v → S.record v = .outside

variable {g : Graph} {start final : Vertex} {S T : Survey} {r r' : Vertex → Record} {v w : Vertex}
  {ws : List Vertex} {f : Frame} {fs : List Frame}

/-- The vertices of the active path are in progress. -/
theorem Valid.phase_of_mem (h : Valid g start final S) (hf : f ∈ S.path) : (S.record f.vertex).phase = .inProgress :=
  (h.inProgress f.vertex).mp (List.mem_map_of_mem hf)

theorem Valid.phase_head (h : Valid g start final ⟨r, f :: fs⟩) : (r f.vertex).phase = .inProgress :=
  h.phase_of_mem List.mem_cons_self

/-- What is not in progress does not lie on the path. -/
theorem Valid.vertex_ne (h : Valid g start final S) (hf : f ∈ S.path) (hw : (S.record w).phase ≠ .inProgress) :
    f.vertex ≠ w := by
  rintro rfl
  exact hw (h.phase_of_mem hf)

/-- The innermost vertex lies on the path once. -/
theorem Valid.ne_head {p : Frame} (h : Valid g start final ⟨r, f :: fs⟩) (hp : p ∈ fs) : p.vertex ≠ f.vertex := by
  intro he
  have hnot : f.vertex ∉ fs.map (·.vertex) := (List.nodup_cons.mp h.nodup).1
  rw [← he] at hnot
  exact hnot (List.mem_map_of_mem hp)

/-- The final vertex is never in progress. -/
theorem Valid.ne_final (h : Valid g start final S) (hv : (S.record v).phase = .inProgress) : v ≠ final := by
  rintro rfl
  rcases h.final with hf | hf
  · rw [hv] at hf; cases hf
  · rw [hf] at hv; cases hv

/-- There is one record that the final vertex is finished with. -/
theorem Valid.record_final (h : Valid g start final S) (hd : (S.record final).phase = .done) :
    S.record final = .final := by
  rcases h.final with hf | hf
  · rw [hd] at hf; cases hf
  · exact hf

/-- A vertex that is not finished is one of the graph. -/
theorem Valid.lt_size (h : Valid g start final S) (hv : (S.record v).phase ≠ .done) : v < g.size :=
  Nat.lt_of_not_le fun hle => hv (by rw [h.outside v hle]; rfl)

/-- A change of one vertex of the graph leaves the others as they were. -/
theorem Valid.outside_update (h : Valid g start final S) (hv : (S.record v).phase ≠ .done) (s : Record) (u : Vertex)
    (hu : g.size ≤ u) : Function.update S.record v s u = .outside := by
  rw [Function.update_of_ne (Nat.lt_of_lt_of_le (h.lt_size hv) hu).ne']
  exact h.outside u hu

/-- The start is in progress until the search is over. -/
theorem Valid.phase_start (h : Valid g start final S) (hp : S.path ≠ []) : (S.record start).phase = .inProgress :=
  (h.inProgress start).mp (List.mem_of_getLast? (h.bottom hp))

/-- The innermost vertex is the start, or due to the one below it. -/
theorem Valid.start_or_due (h : Valid g start final ⟨r, f :: fs⟩) :
    fs = [] ∧ f.vertex = start ∨ ∃ u ws below, fs = ⟨u, f.vertex :: ws⟩ :: below := by
  cases fs with
  | nil =>
    have hbottom : f.vertex = start := by simpa [active] using h.bottom (by simp)
    exact .inl ⟨rfl, hbottom⟩
  | cons p fs =>
    obtain ⟨u, pending⟩ := p
    have hhead : pending.head? = some f.vertex := (List.isChain_cons_cons.mp h.linked).1
    cases pending with
    | nil => cases hhead
    | cons w ws =>
      cases hhead
      exact .inr ⟨u, ws, fs, rfl⟩

/-- No vertex is in progress once the search is over. -/
theorem Valid.phase_ne_inProgress (h : Valid g start final S) (hp : S.path = []) (v : Vertex) :
    (S.record v).phase ≠ .inProgress := fun hv => by
  have := (h.inProgress v).mpr hv
  simp [active, hp] at this

/-- What is due to a vertex of the active path is one of its successors. -/
theorem Valid.arc (h : Valid g start final S) (hf : f ∈ S.path) (hw : w ∈ f.pending) : g.Arc final f.vertex w :=
  ⟨h.ne_final (h.phase_of_mem hf), (h.due f hf).subset hw⟩

/-- Looking at a successor keeps the state valid if no phase changes and the final vertex is left alone. -/
theorem Valid.consume (h : Valid g start final ⟨r, ⟨v, w :: ws⟩ :: fs⟩) (hp : ∀ u, (r' u).phase = (r u).phase)
    (hf : r' final = r final) (ho : ∀ u, g.size ≤ u → r' u = .outside) : Valid g start final ⟨r', ⟨v, ws⟩ :: fs⟩ where
  inProgress u := by
    have := h.inProgress u
    simp only [active, List.map_cons] at this ⊢
    rw [hp]; exact this
  nodup := by simpa [active] using h.nodup
  final := by
    have := h.final
    simp only [hf]; exact this
  due f hm := by
    rcases List.mem_cons.mp hm with rfl | hm
    · exact (List.suffix_cons w ws).trans (h.due ⟨v, w :: ws⟩ List.mem_cons_self)
    · exact h.due f (List.mem_cons_of_mem _ hm)
  linked := by
    have := h.linked
    cases fs with
    | nil => exact .singleton _
    | cons p fs =>
      rw [List.isChain_cons_cons] at this ⊢
      exact this
  bottom _ := by simpa [active] using h.bottom (by simp)
  ended he := by cases he
  outside := ho

/-- **Every act keeps a valid state valid.** -/
theorem Act.valid (ha : Act g final S T) (h : Valid g start final S) : Valid g start final T := by
  cases ha with
  | @enter r v w ws fs hw hf =>
    have hnew : w ∉ (⟨v, w :: ws⟩ :: fs : List Frame).map (·.vertex) := fun hm => by
      have := (h.inProgress w).mp hm
      rw [hw] at this; cases this
    refine ⟨fun u => ?_, List.nodup_cons.mpr ⟨hnew, h.nodup⟩, ?_, ?_, .cons_cons rfl h.linked, fun _ => ?_, ?_,
      h.outside_update (by simp [hw]) _⟩
    · have := h.inProgress u
      by_cases hu : u = w
      · subst hu; simp [active, Record.entered]
      · simpa [active, Function.update_of_ne hu, hu] using this
    · simpa [Function.update_of_ne (Ne.symm hf)] using h.final
    · intro f hm
      rcases List.mem_cons.mp hm with rfl | hm
      · exact List.suffix_refl _
      · exact h.due f hm
    · simpa [active] using h.bottom (by simp)
    · intro he; cases he
  | @settle r v ws fs hw =>
    refine ⟨fun u => ?_, h.nodup, ?_, h.due, h.linked, h.bottom, fun he => (by cases he),
      h.outside_update (by simp [hw]) _⟩
    · have := h.inProgress u
      by_cases hu : u = final
      · subst hu
        have hn : ¬(r u).phase = .inProgress := by rw [hw]; simp
        simpa [active, Record.final, hn] using this
      · simpa [active, Function.update_of_ne hu] using this
    · simp
  | @absorb r v w ws fs hw =>
    have hv : v ≠ final := h.ne_final h.phase_head
    exact h.consume (fun u => phase_update_absorb _ _ _ _) (Function.update_of_ne (Ne.symm hv) _ _)
      (h.outside_update (by simp [h.phase_head]) _)
  | @back r v w ws fs hw =>
    have hspan : ∀ u ∈ spanTo w (⟨v, w :: ws⟩ :: fs), (r u).phase = .inProgress := fun u hu =>
      (h.inProgress u).mp (mem_of_mem_spanTo hu)
    refine h.consume (fun u => phase_markAll _ _ _) (markAll_of_notMem fun hm => h.ne_final (hspan _ hm) rfl)
      fun u hu => ?_
    rw [markAll_of_notMem fun hm => ?_]
    · exact h.outside u hu
    · exact absurd (h.lt_size (by simp [hspan u hm])) (Nat.not_lt.mpr hu)
  | @leave r v fs =>
    have hv : v ≠ final := h.ne_final h.phase_head
    obtain ⟨hnot, hnd⟩ := List.nodup_cons.mp h.nodup
    refine ⟨fun u => ?_, hnd, ?_, fun f hm => h.due f (List.mem_cons_of_mem _ hm), h.linked.tail, fun hne => ?_, ?_,
      h.outside_update (by simp [h.phase_head]) _⟩
    · have := h.inProgress u
      by_cases hu : u = v
      · subst hu; simpa [active] using hnot
      · simpa [active, Function.update_of_ne hu, hu] using this
    · simpa [Function.update_of_ne (Ne.symm hv)] using h.final
    · obtain ⟨p, fs, rfl⟩ := List.exists_cons_of_ne_nil hne
      simpa [active] using h.bottom (by simp)
    · rintro rfl
      have : v = start := by simpa [active] using h.bottom (by simp)
      subst this; simp

/-- A sequence of acts keeps a valid state valid. -/
theorem Valid.of_acts (h : Valid g start final S) (ha : ReflTransGen (Act g final) S T) : Valid g start final T := by
  induction ha with
  | refl => exact h
  | tail _ hact ih => exact hact.valid ih

end Survey

end Waymark
