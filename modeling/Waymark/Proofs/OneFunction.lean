import Waymark.Proofs.Check
import Waymark.Proofs.Search.Subdivision

/-!
# Only one function matters

Control never leaves a function, so a search that starts in one meets nothing but the heads of that function
(`FlowGraph.Charts.exists_head_of_met`). A function that stands in two programs has its heads in both, maybe at other
places of the text, and the graph of the one program holds a picture of what a search meets in that of the other
(`FlowGraph.Charts.subdivides_inFunction`). So if no other function calls the two tracepoints of a check, the other
functions do not matter (`Program.check_outcome_of_shared_function`).
-/

namespace Waymark

open Relation

/-! ## Places in a function -/

/-- The same place in the function number `j`. -/
def Position.inFunction (j : Nat) (r : Position) : Position := ⟨j, r.block, r.index⟩

theorem Position.inFunction_before {r s : Position} (j : Nat) (hfun : r.function = s.function) (h : r.Before s) :
    (r.inFunction j).Before (s.inFunction j) := by
  simp only [Before, inFunction, true_and] at h ⊢
  omega

theorem Position.eq_of_inFunction_eq {r s : Position} {j : Nat} (hfun : r.function = s.function)
    (h : r.inFunction j = s.inFunction j) : r = s := by
  obtain ⟨rf, rb, rk⟩ := r
  obtain ⟨sf, sb, sk⟩ := s
  simp only [inFunction, mk.injEq, true_and] at h
  simp_all

namespace Program

variable {marker name : String} {p p' : Program} {f : Function} {b : Block} {i j : Nat} {r s : Position}

theorem At.inFunction (h : p.At r f b) (hj : p'.functions[j]? = some f) : p'.At (r.inFunction j) f b :=
  ⟨hj, h.2⟩

/-- A function has its heads wherever it stands. -/
theorem inFunction_mem_heads (hi : p.functions[i]? = some f) (hj : p'.functions[j]? = some f)
    (hr : r ∈ p.heads marker) (hfun : r.function = i) : r.inFunction j ∈ p'.heads marker := by
  obtain ⟨f', b, hat, hk, hmark⟩ := mem_heads_iff.mp hr
  cases (hfun ▸ hat.1).symm.trans hi
  exact mem_heads_iff.mpr ⟨f, b, hat.inFunction hj, hk, hmark⟩

/-- From the heads of a function control goes on in the same way wherever it stands. -/
theorem onward_inFunction (hj : p'.functions[j]? = some f) (hat : p.At r f b) :
    p'.onward marker (r.inFunction j) = (p.onward marker r).map (Position.inFunction j) := by
  have hindex : (r.inFunction j).index = r.index := rfl
  rw [(hat.inFunction hj).onward, hat.onward, Block.onward, Block.onward, hindex]
  cases b.nextCut? marker r.index with
  | some k => rfl
  | none =>
    rw [List.map_map]
    rfl

theorem instruction?_inFunction (hi : p.functions[i]? = some f) (hj : p'.functions[j]? = some f)
    (hfun : r.function = i) : p'.instruction? (r.inFunction j) = p.instruction? r := by
  subst hfun
  simp [instruction?, hi, hj, Position.inFunction]

end Program

/-! ## Calls in a function -/

/-- Some instruction of the function calls the tracepoint. -/
def Function.Calls (marker name : String) (f : Function) : Prop := ∃ b ∈ f.blocks, name ∈ b.tracepoints marker

instance (marker name : String) (f : Function) : Decidable (f.Calls marker name) :=
  inferInstanceAs (Decidable (∃ b ∈ f.blocks, _))

namespace Program

variable {marker name : String} {p p' : Program} {f : Function} {i j : Nat} {r : Position}

/-- No function but `f` calls the tracepoint. -/
def CallsOnlyIn (f : Function) (marker name : String) (p : Program) : Prop :=
  ∀ g ∈ p.functions, g.Calls marker name → g = f

instance (f : Function) (marker name : String) (p : Program) : Decidable (p.CallsOnlyIn f marker name) :=
  inferInstanceAs (Decidable (∀ g ∈ p.functions, _))

theorem Calls.function_calls (h : p.Calls marker name r) :
    ∃ g, p.functions[r.function]? = some g ∧ g.Calls marker name := by
  obtain ⟨k, hk, hname⟩ := Option.bind_eq_some_iff.mp h
  obtain ⟨g, b, hat, hget⟩ := instruction?_eq_some_iff.mp hk
  refine ⟨g, hat.1, b, List.mem_of_getElem? hat.2, ?_⟩
  exact List.mem_filterMap.mpr ⟨k, List.mem_of_getElem? hget, hname⟩

/-- A function stands in a well-formed program only once. -/
theorem WellFormed.function_unique (h : p.WellFormed) (hi : p.functions[i]? = some f)
    (hj : p.functions[j]? = some f) : j = i := by
  have hnd : p.functions.Nodup := List.Nodup.of_map _ h.names
  obtain ⟨hlt, hget⟩ := List.getElem?_eq_some_iff.mp hi
  obtain ⟨hlt', hget'⟩ := List.getElem?_eq_some_iff.mp hj
  exact hnd.getElem_inj_iff.mp (hget'.trans hget.symm)

theorem CallsOnlyIn.function_eq (honly : p.CallsOnlyIn f marker name) (h : p.WellFormed)
    (hi : p.functions[i]? = some f) (hcall : p.Calls marker name r) : r.function = i := by
  obtain ⟨g, hg, hcalls⟩ := hcall.function_calls
  rw [honly g (List.mem_of_getElem? hg) hcalls] at hg
  exact h.function_unique hi hg

/-- **The last call** of a tracepoint that only one function calls is at the same place in it. -/
theorem WellFormed.lastCall?_inFunction (h : p.WellFormed) (h' : p'.WellFormed) (hi : p.functions[i]? = some f)
    (hj : p'.functions[j]? = some f) (honly : p.CallsOnlyIn f marker name) (honly' : p'.CallsOnlyIn f marker name) :
    p'.lastCall? marker name = (p.lastCall? marker name).map (Position.inFunction j) := by
  apply lastCall?_eq_map
  · intro s
    constructor
    · intro hs
      have hfun : s.function = j := honly'.function_eq h' hj hs
      refine ⟨s.inFunction i, ?_, ?_⟩
      · rw [Calls, instruction?_inFunction hj hi hfun]
        exact hs
      · rw [← hfun]
        rfl
    · rintro ⟨r, hr, rfl⟩
      rw [Calls, instruction?_inFunction hi hj (honly.function_eq h hi hr)]
      exact hr
  · intro r s hr hs hrs
    exact Position.inFunction_before j ((honly.function_eq h hi hr).trans (honly.function_eq h hi hs).symm) hrs

end Program

/-! ## Searches in a function -/

namespace FlowGraph.Charts

variable {marker : String} {p p' : Program} {g g' : FlowGraph} {f : Function} {i j : Nat} {ps pf : Position}

section InFunction

variable (hg : g.Charts marker p) (h : p.WellFormed) (hs : ps ∈ p.heads marker) (hf : pf ∈ p.heads marker)
  (hsi : ps.function = i) (hfi : pf.function = i)

include hg h hs hf hsi hfi

/-- A search between heads of a function meets only heads of that function. -/
theorem exists_head_of_met {v : Vertex} (hv : g.graph.Met (p.vertex marker ps) (p.vertex marker pf) v) :
    ∃ r ∈ p.heads marker, r.function = i ∧ p.vertex marker r = v := by
  rcases hv with hreach | rfl
  · induction hreach with
    | refl => exact ⟨ps, hs, hsi, rfl⟩
    | tail _ harc ih =>
      obtain ⟨r, hr, hri, rfl⟩ := ih
      have hsucc := harc.2
      rw [hg.successors r hr] at hsucc
      obtain ⟨u, hu, rfl⟩ := List.mem_map.mp hsucc
      obtain ⟨f, b, hat, -⟩ := Program.mem_heads_iff.mp hr
      exact ⟨u, h.mem_heads_of_onward hat hu, (Program.function_of_mem_onward hu).trans hri, rfl⟩
  · exact ⟨pf, hf, hfi, rfl⟩

variable (hg' : g'.Charts marker p') (hi : p.functions[i]? = some f) (hj : p'.functions[j]? = some f)

include hg' hi hj

/-- **The picture** of a function in the graph of another program that it stands in. There are no doors: the image of a
vertex is the vertex of the same place. -/
theorem subdivides_inFunction :
    g.graph.Subdivides g'.graph (p.vertex marker ps) (p.vertex marker pf)
      (fun v => p'.vertex marker ((p.headAt marker v).inFunction j))
      (fun v => p'.vertex marker ((p.headAt marker v).inFunction j)) where
  lt := by
    intro v hv
    obtain ⟨r, hr, hri, rfl⟩ := hg.exists_head_of_met h hs hf hsi hfi hv
    rw [Program.headAt_vertex hr]
    exact hg'.vertex_lt_size (Program.inFunction_mem_heads hi hj hr hri)
  inj := by
    intro v w hv hw heq
    obtain ⟨r, hr, hri, rfl⟩ := hg.exists_head_of_met h hs hf hsi hfi hv
    obtain ⟨u, hu, hui, rfl⟩ := hg.exists_head_of_met h hs hf hsi hfi hw
    rw [Program.headAt_vertex hr, Program.headAt_vertex hu] at heq
    have hplace := Program.vertex_inj (Program.inFunction_mem_heads hi hj hr hri) heq
    rw [Position.eq_of_inFunction_eq (hri.trans hui.symm) hplace]
  successors := by
    intro v hv _
    obtain ⟨r, hr, hri, rfl⟩ := hg.exists_head_of_met h hs hf hsi hfi (.inl hv)
    obtain ⟨f', b, hat, -⟩ := Program.mem_heads_iff.mp hr
    cases (hri ▸ hat.1).symm.trans hi
    rw [Program.headAt_vertex hr, hg'.successors _ (Program.inFunction_mem_heads hi hj hr hri),
      Program.onward_inFunction hj hat, hg.successors r hr, List.map_map, List.map_map]
    refine List.map_congr_left fun u hu => ?_
    simp only [Function.comp, Program.headAt_vertex (h.mem_heads_of_onward hat hu)]
  door := fun _ hne => absurd rfl hne

/-- A search between two heads of a function finds out the same in both graphs. -/
theorem outcome_inFunction :
    g'.graph.outcome (p'.vertex marker (ps.inFunction j)) (p'.vertex marker (pf.inFunction j)) =
      g.graph.outcome (p.vertex marker ps) (p.vertex marker pf) := by
  have hrecord := (hg.subdivides_inFunction h hs hf hsi hfi hg' hi hj).startRecord_eq (hg.vertex_lt_size hs)
    (hg.vertex_lt_size hf) rfl
  simp only [Program.headAt_vertex hs, Program.headAt_vertex hf] at hrecord
  rw [Graph.outcome, Graph.outcome, hrecord]

end InFunction

end FlowGraph.Charts

/-! ## Outcomes -/

namespace Program

variable {marker start final : String} {p p' : Program} {f : Function}

/-- **Only one function matters**: where a function stands in two verified programs, and no other function of either
calls one of the two tracepoints, a check has the same outcome in both. -/
theorem check_outcome_of_shared_function (h : p.verify = .ok ()) (h' : p'.verify = .ok ()) (hf : f ∈ p.functions)
    (hf' : f ∈ p'.functions)
    (honly : p.CallsOnlyIn f marker start ∧ p.CallsOnlyIn f marker final)
    (honly' : p'.CallsOnlyIn f marker start ∧ p'.CallsOnlyIn f marker final) :
    ∃ c c' : Logged Checked, p.check marker start final = .ok c ∧ p'.check marker start final = .ok c' ∧
      c'.value.outcome = c.value.outcome := by
  have hwf : p.WellFormed := verify_eq_ok_iff.mp h
  have hwf' : p'.WellFormed := verify_eq_ok_iff.mp h'
  obtain ⟨i, hi⟩ := List.mem_iff_getElem?.mp hf
  obtain ⟨j, hj⟩ := List.mem_iff_getElem?.mp hf'
  have hstart := hwf.lastCall?_inFunction hwf' hi hj honly.1 honly'.1
  have hfinal := hwf.lastCall?_inFunction hwf' hi hj honly.2 honly'.2
  rcases p.lastCall?_cases marker start final with hmissing | ⟨ps, pf, hs, hf⟩
  · obtain ⟨c, hcheck, houtcome⟩ := hwf.check_of_missing hmissing
    have hmissing' : p'.lastCall? marker start = none ∨ p'.lastCall? marker final = none := by
      simpa [hstart, hfinal] using hmissing
    obtain ⟨c', hcheck', houtcome'⟩ := hwf'.check_of_missing hmissing'
    refine ⟨c, c', hcheck, hcheck', ?_⟩
    rw [houtcome, houtcome', hstart, hfinal, Option.isNone_map, Option.isNone_map]
  · rw [hs] at hstart
    rw [hf] at hfinal
    obtain ⟨g, c, hg, hcheck, houtcome⟩ := hwf.check_of_found hs hf
    obtain ⟨g', c', hg', hcheck', houtcome'⟩ := hwf'.check_of_found hstart hfinal
    have hsi : ps.function = i := honly.1.function_eq hwf hi (calls_of_lastCall? hs)
    have hfi : pf.function = i := honly.2.function_eq hwf hi (calls_of_lastCall? hf)
    refine ⟨c, c', hcheck, hcheck', ?_⟩
    rw [houtcome, houtcome']
    exact hg.outcome_inFunction hwf (mem_heads_of_lastCall? hs) (mem_heads_of_lastCall? hf) hsi hfi hg' hi hj

/-- A function with a loop, alone and behind another one that uses its label and calls another tracepoint. -/
theorem check_outcome_of_shared_function_behind :
    let f : Function := ⟨"main", [⟨"a", [.op "x", .call "t_a", .cbr "a" "b"]⟩, ⟨"b", [.call "t_b", .ret]⟩]⟩
    let p : Program := ⟨[f]⟩
    let p' : Program := ⟨[⟨"other", [⟨"b", [.call "t_c", .op "y", .call "t_c", .br "b"]⟩]⟩, f]⟩
    p.verify = .ok () ∧ p'.verify = .ok () ∧ f ∈ p.functions ∧ f ∈ p'.functions ∧
      (p.CallsOnlyIn f "t_" "a" ∧ p.CallsOnlyIn f "t_" "b") ∧
      (p'.CallsOnlyIn f "t_" "a" ∧ p'.CallsOnlyIn f "t_" "b") ∧
      ∃ c c' : Logged Checked, p.check "t_" "a" "b" = .ok c ∧ p'.check "t_" "a" "b" = .ok c' ∧
        c'.value.outcome = c.value.outcome := by
  intro f p p'
  have h : p.verify = .ok () := by decide +kernel
  have h' : p'.verify = .ok () := by decide +kernel
  have hf : f ∈ p.functions := by decide +kernel
  have hf' : f ∈ p'.functions := by decide +kernel
  have honly : p.CallsOnlyIn f "t_" "a" ∧ p.CallsOnlyIn f "t_" "b" := by decide +kernel
  have honly' : p'.CallsOnlyIn f "t_" "a" ∧ p'.CallsOnlyIn f "t_" "b" := by decide +kernel
  exact ⟨h, h', hf, hf', honly, honly', check_outcome_of_shared_function h h' hf hf' honly honly'⟩

end Program

end Waymark
