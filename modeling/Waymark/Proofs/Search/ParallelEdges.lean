import Waymark.Proofs.Search.Mirror
import Waymark.Proofs.Search.Exact

/-!
# Parallel edges

An edge that stands more than once at its source is looked at more than once, and every look after the first finds
nothing new. The successor may be finished by then, and its record was taken in; or it lies on the active path, and the
loop back to it was marked (`Survey.Settled`). This stays so while the search goes on, since records only grow
(`Survey.Act.grows`) and finished ones do not change.

So a search in the graph without parallel edges does the same acts, less those that change nothing
(`Survey.Act.merges`), and leaves the same records (`Graph.records_search_withoutParallel`).
-/

namespace Waymark

open Relation

/-! ## Each successor once -/

/-- The vertices that are due and were not seen, each once. -/
def stillNew (seen due : List Vertex) : List Vertex := (due.removeAll seen).eraseDups

theorem stillNew_nil_left (due : List Vertex) : stillNew [] due = due.eraseDups := by
  simp [stillNew, List.removeAll]

theorem stillNew_nil_right (seen : List Vertex) : stillNew seen [] = [] := rfl

/-- A vertex that was seen may be left out. -/
theorem stillNew_of_mem {seen due : List Vertex} {w : Vertex} (h : w ∈ seen) :
    stillNew seen (w :: due) = stillNew (seen ++ [w]) due := by
  have hmem : ∀ u, u ∈ seen ++ [w] ↔ u ∈ seen := fun u => by
    simp only [List.mem_append, List.mem_singleton, or_iff_left_iff_imp]
    rintro rfl
    exact h
  simp [stillNew, List.removeAll, h, hmem]

/-- A vertex that was not seen comes next, and is seen then. -/
theorem stillNew_of_notMem {seen due : List Vertex} {w : Vertex} (h : w ∉ seen) :
    stillNew seen (w :: due) = w :: stillNew (seen ++ [w]) due := by
  have hfilter : (due.removeAll seen).filter (fun u => !u == w) = due.removeAll (seen ++ [w]) := by
    simp only [List.removeAll, List.filter_filter]
    refine List.filter_congr fun u _ => ?_
    by_cases hu : u = w
    · simp [hu]
    · simp [hu]
  have hcons : (w :: due).removeAll seen = w :: due.removeAll seen := by simp [List.removeAll, h]
  rw [stillNew, hcons, List.eraseDups_cons, hfilter]
  rfl

namespace Graph

/-- The graph without parallel edges: of the places where a successor stands, the first one is kept. -/
def withoutParallel (g : Graph) : Graph where
  adjacency := g.adjacency.map (·.eraseDups)
  closed ws hws w hw := by
    obtain ⟨us, hus, rfl⟩ := Array.mem_map.mp hws
    rw [Array.size_map]
    exact g.closed us hus w (List.mem_eraseDups.mp hw)

@[simp] theorem size_withoutParallel (g : Graph) : g.withoutParallel.size = g.size := by
  simp [withoutParallel, size]

theorem successors_withoutParallel (g : Graph) (v : Vertex) :
    g.withoutParallel.successors v = (g.successors v).eraseDups := by
  simp only [withoutParallel, successors, Array.getD_eq_getD_getElem?, Array.getElem?_map]
  cases g.adjacency[v]? <;> rfl

theorem isSink_withoutParallel (g : Graph) (v : Vertex) : g.withoutParallel.isSink v = g.isSink v := by
  rw [isSink, isSink, successors_withoutParallel]
  cases g.successors v with
  | nil => rfl
  | cons w ws =>
    rw [List.eraseDups_cons]
    rfl

end Graph

/-! ## Records only grow -/

namespace Record

theorem absorb_absorb_self (r s : Record) : (r.absorb s).absorb s = r.absorb s := by
  simp [absorb]

theorem absorb_right_comm (r s t : Record) : (r.absorb s).absorb t = (r.absorb t).absorb s := by
  simp [absorb, Bool.or_right_comm]

theorem markLoop_eq_self {r : Record} (h : r.loops = true) : r.markLoop = r := by
  cases r
  cases h
  rfl

/-- A change that an act makes to the record of a vertex that was met. -/
inductive Grows : Record → Record → Prop where
  | refl (r : Record) : Grows r r
  | absorb (r s : Record) : Grows r (r.absorb s)
  | mark (r : Record) : Grows r r.markLoop
  | finish (r : Record) : Grows r r.finish

variable {r r' s : Record}

theorem Grows.loops (h : Grows r r') (hl : r.loops = true) : r'.loops = true := by
  cases h with
  | refl => exact hl
  | absorb => simp [Record.absorb, hl]
  | mark => rfl
  | finish => exact hl

/-- What was taken in once adds nothing later. -/
theorem Grows.absorb_eq_self (h : Grows r r') (hs : r.absorb s = r) : r'.absorb s = r' := by
  cases h with
  | refl => exact hs
  | absorb t => rw [absorb_right_comm, hs]
  | mark =>
    have hmark : r.markLoop.absorb s = (r.absorb s).markLoop := rfl
    rw [hmark, hs]
  | finish =>
    have hfinish : r.finish.absorb s = (r.absorb s).finish := rfl
    rw [hfinish, hs]

end Record

namespace Survey

variable {g : Graph} {start final : Vertex} {S T : Survey} {r r' : Vertex → Record} {u v w : Vertex}
  {seen due ws : List Vertex} {fs fs' P : List Frame}

/-- Every act lets the records of the vertices that were met grow. -/
theorem Act.grows (ha : Act g final S T) (hv : (S.record v).phase ≠ .unvisited) :
    (S.record v).Grows (T.record v) := by
  have hset : ∀ {u : Vertex} {s : Record}, (v = u → (S.record v).Grows s) →
      (S.record v).Grows (Function.update S.record u s v) := fun {u s} hs => by
    by_cases hu : v = u
    · subst hu
      rw [Function.update_self]
      exact hs rfl
    · rw [Function.update_of_ne hu]
      exact .refl _
  cases ha with
  | enter hw => exact hset fun hu => absurd (hu ▸ hw) hv
  | settle hw => exact hset fun hu => absurd (hu ▸ hw) hv
  | absorb => exact hset fun hu => hu ▸ .absorb _ _
  | back =>
    simp only [markAll]
    split
    · exact .mark _
    · exact .refl _
  | leave => exact hset fun hu => hu ▸ .finish _

/-! ## Successors that were looked at -/

/-- Another look at the successor `w` of `v`, which stands on the path above `fs`, changes nothing: `w` is finished and
was taken in, or it lies on the path and the loop was marked. -/
def Settled (r : Vertex → Record) (fs : List Frame) (v w : Vertex) : Prop :=
  (r w).phase = .done ∧ (r v).absorb (r w) = r v ∨
    w ∈ v :: fs.map (·.vertex) ∧ ∀ u ∈ spanTo w (⟨v, []⟩ :: fs), (r u).loops = true

theorem Settled.grow (h : Settled r fs v w) (hdone : ∀ u, (r u).phase = .done → r' u = r u)
    (hgrow : ∀ u ∈ v :: fs.map (·.vertex), (r u).Grows (r' u)) : Settled r' fs v w := by
  rcases h with ⟨hw, habsorb⟩ | ⟨hw, hspan⟩
  · refine .inl ?_
    rw [hdone w hw]
    exact ⟨hw, (hgrow v List.mem_cons_self).absorb_eq_self habsorb⟩
  · refine .inr ⟨hw, fun u hu => ?_⟩
    exact (hgrow u (mem_of_mem_spanTo hu)).loops (hspan u hu)

/-- The path `fs'` is that of a search without parallel edges: at each vertex of `fs` the successors that were seen are
settled, and of those that are due each new one is due once. -/
inductive Merges (g : Graph) (r : Vertex → Record) : (fs fs' : List Frame) → Prop where
  | nil : Merges g r [] []
  | cons {v : Vertex} {seen due : List Vertex} {fs fs' : List Frame} (hsucc : g.successors v = seen ++ due)
      (hseen : ∀ w ∈ seen, Settled r fs v w) (h : Merges g r fs fs') :
      Merges g r (⟨v, due⟩ :: fs) (⟨v, stillNew seen due⟩ :: fs')

theorem Merges.map_vertex (h : Merges g r fs fs') : fs'.map (·.vertex) = fs.map (·.vertex) := by
  induction h with
  | nil => rfl
  | cons _ _ _ ih => rw [List.map_cons, List.map_cons, ih]

theorem Merges.grow (h : Merges g r fs fs') (hdone : ∀ u, (r u).phase = .done → r' u = r u)
    (hgrow : ∀ u ∈ fs.map (·.vertex), (r u).Grows (r' u)) : Merges g r' fs fs' := by
  induction h with
  | nil => exact .nil
  | cons hsucc hseen _ ih =>
    refine .cons hsucc (fun w hw => (hseen w hw).grow hdone hgrow) (ih fun u hu => ?_)
    exact hgrow u (List.mem_cons_of_mem _ hu)

/-- A finished successor that is taken in is settled. -/
theorem settled_absorb (hne : w ≠ v) (hw : (r w).phase = .done) :
    Settled (Function.update r v ((r v).absorb (r w))) fs v w := by
  refine .inl ?_
  rw [Function.update_of_ne hne, Function.update_self]
  exact ⟨hw, Record.absorb_absorb_self _ _⟩

/-- A successor on the path is settled once the loop is marked. -/
theorem settled_markAll (hw : w ∈ v :: fs.map (·.vertex)) :
    Settled (markAll r (spanTo w (⟨v, due⟩ :: fs))) fs v w := by
  have hcongr : spanTo w (⟨v, due⟩ :: fs) = spanTo w (⟨v, []⟩ :: fs) := spanTo_congr rfl
  refine .inr ⟨hw, fun u hu => ?_⟩
  rw [hcongr, markAll_of_mem hu]
  rfl

/-- A successor that was seen was met. -/
theorem Valid.met_of_settled (hV : Valid g start final ⟨r, ⟨v, due⟩ :: fs⟩) (h : Settled r fs v w) :
    (r w).phase ≠ .unvisited := by
  rcases h with ⟨hw, -⟩ | ⟨hw, -⟩
  · simp [hw]
  · have hphase : (r w).phase = .inProgress := (hV.inProgress w).mp hw
    simp [hphase]

/-- Another look at a finished successor changes no record. -/
theorem Valid.update_absorb_of_settled (hV : Valid g start final ⟨r, ⟨v, due⟩ :: fs⟩) (h : Settled r fs v w)
    (hw : (r w).phase = .done) : Function.update r v ((r v).absorb (r w)) = r := by
  rcases h with ⟨-, habsorb⟩ | ⟨hmem, -⟩
  · rw [habsorb, Function.update_eq_self]
  · have hphase : (r w).phase = .inProgress := (hV.inProgress w).mp hmem
    rw [hw] at hphase
    cases hphase

/-- Another look at a successor on the path changes no record. -/
theorem markAll_of_settled (h : Settled r fs v w) (hw : (r w).phase = .inProgress) :
    markAll r (spanTo w (⟨v, due⟩ :: fs)) = r := by
  rcases h with ⟨hdone, -⟩ | ⟨-, hspan⟩
  · rw [hw] at hdone
    cases hdone
  · have hcongr : spanTo w (⟨v, due⟩ :: fs) = spanTo w (⟨v, []⟩ :: fs) := spanTo_congr rfl
    funext u
    rw [hcongr]
    by_cases hu : u ∈ spanTo w (⟨v, []⟩ :: fs)
    · rw [markAll_of_mem hu, Record.markLoop_eq_self (hspan u hu)]
    · rw [markAll_of_notMem hu]

/-! ## Acts without parallel edges -/

/-- A successor that was not met is due without parallel edges too. -/
theorem Merges.exists_cons (h : Merges g r (⟨v, w :: ws⟩ :: fs) P) (hV : Valid g start final ⟨r, ⟨v, w :: ws⟩ :: fs⟩)
    (hw : (r w).phase = .unvisited) : ∃ ds fs', P = ⟨v, w :: ds⟩ :: fs' := by
  cases h with
  | @cons _ seen _ _ fs' _ hseen _ =>
    have hnew : w ∉ seen := fun hmem => hV.met_of_settled (hseen w hmem) hw
    exact ⟨stillNew (seen ++ [w]) ws, fs', by rw [stillNew_of_notMem hnew]⟩

/-- A look at a successor that was met is an act without parallel edges too, unless it is not the first one: then it
changes nothing. -/
theorem Merges.look (h : Merges g r (⟨v, w :: ws⟩ :: fs) P) (hdone : ∀ u, (r u).phase = .done → r' u = r u)
    (hgrow : ∀ u ∈ v :: fs.map (·.vertex), (r u).Grows (r' u)) (hsettled : Settled r' fs v w)
    (hagain : Settled r fs v w → r' = r)
    (hact : ∀ ds fs', fs'.map (·.vertex) = fs.map (·.vertex) →
      Act g.withoutParallel final ⟨r, ⟨v, w :: ds⟩ :: fs'⟩ ⟨r', ⟨v, ds⟩ :: fs'⟩) :
    ∃ Q, ReflTransGen (Act g.withoutParallel final) ⟨r, P⟩ ⟨r', Q⟩ ∧ Merges g r' (⟨v, ws⟩ :: fs) Q := by
  cases h with
  | @cons _ seen _ _ fs' hsucc hseen h =>
    have hall : ∀ u ∈ seen ++ [w], Settled r' fs v u := by
      refine List.forall_mem_append.mpr ⟨fun u hu => (hseen u hu).grow hdone hgrow, ?_⟩
      simpa using hsettled
    have hrest : Merges g r' fs fs' := h.grow hdone fun u hu => hgrow u (List.mem_cons_of_mem _ hu)
    refine ⟨⟨v, stillNew (seen ++ [w]) ws⟩ :: fs', ?_, .cons (by rw [hsucc]; simp) hall hrest⟩
    by_cases hmem : w ∈ seen
    · rw [stillNew_of_mem hmem, hagain (hseen w hmem)]
    · rw [stillNew_of_notMem hmem]
      exact .single (hact _ _ h.map_vertex)

/-- **Without parallel edges a search does the same**, less the acts that change nothing. -/
theorem Act.merges (ha : Act g final S T) (hV : Valid g start final S) (h : Merges g S.record S.path P) :
    ∃ Q, ReflTransGen (Act g.withoutParallel final) ⟨S.record, P⟩ ⟨T.record, Q⟩ ∧ Merges g T.record T.path Q := by
  have hdone : ∀ u, (S.record u).phase = .done → T.record u = S.record u := fun u hu => ha.frozen hV hu
  have hgrow : ∀ u ∈ S.path.map (·.vertex), (S.record u).Grows (T.record u) := fun u hu => by
    have hphase : (S.record u).phase = .inProgress := (hV.inProgress u).mp hu
    exact ha.grows (by simp [hphase])
  cases ha with
  | @enter r v w ws fs hw hf =>
    have hgrown := h.grow hdone hgrow
    obtain ⟨ds, fs', rfl⟩ := h.exists_cons hV hw
    refine ⟨⟨w, g.withoutParallel.successors w⟩ :: ⟨v, w :: ds⟩ :: fs', ?_, ?_⟩
    · rw [← g.isSink_withoutParallel w]
      exact .single (.enter hw hf)
    · rw [g.successors_withoutParallel, ← stillNew_nil_left]
      exact .cons rfl (by simp) hgrown
  | @settle r v ws fs hw =>
    have hgrown := h.grow hdone hgrow
    obtain ⟨ds, fs', rfl⟩ := h.exists_cons hV hw
    exact ⟨_, .single (.settle hw), hgrown⟩
  | @absorb r v w ws fs hw =>
    have hne : w ≠ v := by
      rintro rfl
      have := hV.phase_head
      rw [hw] at this
      cases this
    exact h.look hdone hgrow (settled_absorb hne hw) (fun hs => hV.update_absorb_of_settled hs hw)
      fun _ _ _ => .absorb hw
  | @back r v w ws fs hw =>
    have hmem : w ∈ v :: fs.map (·.vertex) := (hV.inProgress w).mpr hw
    refine h.look hdone hgrow (settled_markAll hmem) (fun hs => markAll_of_settled hs hw) fun ds fs' hfs => ?_
    have hspan : spanTo w (⟨v, w :: ws⟩ :: fs) = spanTo w (⟨v, w :: ds⟩ :: fs') := spanTo_congr (by simp [hfs])
    rw [hspan]
    exact .back hw
  | @leave r v fs =>
    cases h with
    | @cons _ seen _ _ fs' _ _ h =>
      rw [stillNew_nil_right]
      exact ⟨fs', .single .leave, h.grow hdone fun u hu => hgrow u (List.mem_cons_of_mem _ hu)⟩

theorem initial_merges (g : Graph) (start final : Vertex) :
    ∃ P, initial g.withoutParallel start final = ⟨(initial g start final).record, P⟩ ∧
      Merges g (initial g start final).record (initial g start final).path P := by
  have hblank : blank g.withoutParallel = blank g := by
    funext v
    rw [blank, blank, g.size_withoutParallel]
  unfold initial
  split
  next => exact ⟨[], by rw [hblank], .nil⟩
  next =>
    refine ⟨[⟨start, g.withoutParallel.successors start⟩], by rw [hblank, g.isSink_withoutParallel], ?_⟩
    rw [g.successors_withoutParallel, ← stillNew_nil_left]
    exact .cons rfl (by simp) .nil

/-- A sequence of acts has its like without parallel edges. -/
theorem Merges.acts (ha : ReflTransGen (Act g final) S T) (hV : Valid g start final S)
    (h : Merges g S.record S.path P) :
    ∃ Q, ReflTransGen (Act g.withoutParallel final) ⟨S.record, P⟩ ⟨T.record, Q⟩ ∧ Merges g T.record T.path Q := by
  induction ha with
  | refl => exact ⟨P, .refl, h⟩
  | tail hacts hact ih =>
    obtain ⟨Q, hQ, hmerges⟩ := ih
    obtain ⟨R, hR, hmerges'⟩ := hact.merges (hV.of_acts hacts) hmerges
    exact ⟨R, hQ.trans hR, hmerges'⟩

end Survey

/-! ## Whole searches -/

namespace Graph

variable {g : Graph} {start final : Vertex}

/-- **Parallel edges leave no trace** in the records of a search. -/
theorem records_search_withoutParallel (hs : start < g.size) (hf : final < g.size) :
    (g.withoutParallel.search start final).records = (g.search start final).records := by
  obtain ⟨S, hacts, -, hend, hsize, hrec⟩ := g.search_act hs hf
  obtain ⟨S', hacts', -, hend', hsize', hrec'⟩ :=
    g.withoutParallel.search_act (g.size_withoutParallel.symm ▸ hs) (g.size_withoutParallel.symm ▸ hf)
  obtain ⟨P, hP, hmerges⟩ := Survey.initial_merges g start final
  obtain ⟨Q, hQ, hmergesQ⟩ := hmerges.acts hacts (Survey.initial_valid hs hf)
  have hnil : Q = [] := by
    rw [hend] at hmergesQ
    cases hmergesQ
    rfl
  rw [hP] at hacts'
  have hsame : (⟨S.record, Q⟩ : Survey) = S' := Survey.eq_of_acts hQ hacts' hnil hend'
  rw [size_withoutParallel, ← hsize] at hsize'
  refine Array.ext hsize' fun v hv hv' => ?_
  have hget := (hrec' v).trans ((congrArg (Survey.record · v) hsame.symm).trans (hrec v).symm)
  simpa [Array.getD, hv, hv'] using hget

end Graph

end Waymark
