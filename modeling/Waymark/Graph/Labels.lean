import Waymark.Graph.Basic

/-!
# Named vertices

A table of names for vertices, in the order in which the names were first given. A name given again keeps its place
and moves to the new vertex. The vertices need not belong to any graph.
-/

namespace Waymark

/-- Names with their vertices, no name twice. -/
structure Labels where
  bindings : List (String × Vertex)
  nodup : (bindings.map Prod.fst).Nodup
  deriving DecidableEq

namespace Labels

/-! ## Tables -/

/-- No names. -/
def empty : Labels := ⟨[], List.nodup_nil⟩

/-- The vertex that a name stands for. -/
def get? (l : Labels) (name : String) : Option Vertex := l.bindings.lookup name

/-- Whether a name stands for some vertex. -/
def contains (l : Labels) (name : String) : Bool := (l.get? name).isSome

/-- The number of names. -/
def size (l : Labels) : Nat := l.bindings.length

/-- The names of a vertex, in order. -/
def namesOf (l : Labels) (v : Vertex) : List String :=
  (l.bindings.filter (·.2 = v)).map Prod.fst

/-- Moves a name to a vertex, wherever it stands. -/
def rebind (name : String) (v : Vertex) (bindings : List (String × Vertex)) : List (String × Vertex) :=
  bindings.map fun b => if b.1 = name then (name, v) else b

/-- Moving a name changes no name. -/
theorem map_fst_rebind (name : String) (v : Vertex) (bindings : List (String × Vertex)) :
    (rebind name v bindings).map Prod.fst = bindings.map Prod.fst := by
  simp only [rebind, List.map_map]
  refine List.map_congr_left fun b _ => ?_
  simp only [Function.comp]
  split
  · simp [*]
  · rfl

/-- Lets a name stand for a vertex; a new name comes last. -/
def insert (l : Labels) (name : String) (v : Vertex) : Labels :=
  if h : name ∈ l.bindings.map Prod.fst then
    ⟨rebind name v l.bindings, by rw [map_fst_rebind]; exact l.nodup⟩
  else
    ⟨l.bindings ++ [(name, v)], by
      rw [List.map_append, List.nodup_append]
      refine ⟨l.nodup, by simp, fun a ha b hb hab => ?_⟩
      rw [List.map_singleton, List.mem_singleton] at hb
      rw [hab, hb] at ha
      exact h ha⟩

/-- Names given one after the other. -/
def ofList (bindings : List (String × Vertex)) : Labels :=
  bindings.foldl (fun l (name, v) => l.insert name v) empty

/-! ## What a table answers -/

/-- The first name decides, or else the others. -/
theorem lookup_cons (n : String) (b : String × Vertex) (bindings : List (String × Vertex)) :
    (b :: bindings).lookup n = if n = b.1 then some b.2 else bindings.lookup n := by
  obtain ⟨m, w⟩ := b
  rw [List.lookup_cons]
  by_cases h : n = m
  · simp [h]
  · have : (n == m) = false := by simpa using h
    simp [h, this]

theorem rebind_cons (name : String) (v : Vertex) (b : String × Vertex) (bindings : List (String × Vertex)) :
    rebind name v (b :: bindings) = (if b.1 = name then (name, v) else b) :: rebind name v bindings := rfl

/-- A moved name leads to its new vertex. -/
theorem lookup_rebind_self {name : String} {v : Vertex} {bindings : List (String × Vertex)}
    (h : name ∈ bindings.map Prod.fst) : (rebind name v bindings).lookup name = some v := by
  induction bindings with
  | nil => simp at h
  | cons b bs ih =>
    rw [rebind_cons, lookup_cons]
    by_cases hb : b.1 = name
    · simp [hb]
    · simp only [hb, if_false, Ne.symm hb]
      exact ih ((List.mem_cons.mp h).resolve_left (Ne.symm hb))

/-- Moving a name does not touch the others. -/
theorem lookup_rebind_ne {name n : String} {v : Vertex} {bindings : List (String × Vertex)} (h : n ≠ name) :
    (rebind name v bindings).lookup n = bindings.lookup n := by
  induction bindings with
  | nil => rfl
  | cons b bs ih =>
    rw [rebind_cons, lookup_cons, lookup_cons, ih]
    by_cases hb : b.1 = name
    · simp [hb, h]
    · simp [hb]

/-- A new name at the end leads to its vertex, and the others where they did. -/
theorem lookup_concat {name : String} {v : Vertex} {bindings : List (String × Vertex)} (n : String)
    (h : name ∉ bindings.map Prod.fst) :
    (bindings ++ [(name, v)]).lookup n = if n = name then some v else bindings.lookup n := by
  induction bindings with
  | nil => simp [lookup_cons]
  | cons b bs ih =>
    rw [List.map_cons, List.mem_cons, not_or] at h
    rw [List.cons_append, lookup_cons, lookup_cons, ih h.2]
    by_cases hn : n = b.1
    · have : n ≠ name := fun e => h.1 (e ▸ hn)
      simp only [if_pos hn, if_neg this]
    · simp [hn]

/-- A name given to a vertex leads there, and the others where they did. -/
theorem get?_insert (l : Labels) (name n : String) (v : Vertex) :
    (l.insert name v).get? n = if n = name then some v else l.get? n := by
  unfold insert
  split
  next h =>
    by_cases hn : n = name
    · subst hn
      rw [if_pos rfl]
      exact lookup_rebind_self h
    · rw [if_neg hn]
      exact lookup_rebind_ne hn
  next h => exact lookup_concat n h

/-- A name keeps its place, and a new one comes last. -/
theorem map_fst_insert (l : Labels) (name : String) (v : Vertex) :
    (l.insert name v).bindings.map Prod.fst =
      if name ∈ l.bindings.map Prod.fst then l.bindings.map Prod.fst else l.bindings.map Prod.fst ++ [name] := by
  unfold insert
  split
  · exact map_fst_rebind ..
  · simp

end Labels

end Waymark
