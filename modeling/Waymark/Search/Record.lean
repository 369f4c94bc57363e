/-!
# Records of a search

What a search for a final vertex learns about one vertex. While the vertex lies on the active path its record takes
in those of its finished successors (`Record.absorb`); once it is finished the record stays.
-/

namespace Waymark

/-- How far a search has got with a vertex. -/
inductive Phase where
  | unvisited
  /-- On the active path. -/
  | inProgress
  | done
  deriving DecidableEq

/-- What is known about a vertex. -/
structure Record where
  /-- Some path leads to the final vertex. -/
  reaches : Bool
  /-- Some path avoids the final vertex: it ends, or goes on where the final vertex was not seen to be reached. -/
  avoids : Bool
  /-- A loop lies ahead, before the final vertex. -/
  loops : Bool
  phase : Phase
  deriving DecidableEq

namespace Record

/-- A vertex that was not seen yet. -/
def unvisited : Record := ⟨false, false, false, .unvisited⟩

/-- The final vertex, which ends every path. -/
def final : Record := ⟨true, false, false, .done⟩

/-- A vertex that enters the active path; a dead end is itself a path that avoids the final vertex. -/
def entered (isSink : Bool) : Record := ⟨false, isSink, false, .inProgress⟩

/-- What stands for a vertex outside the graph: there is nothing left to do. -/
def outside : Record := ⟨false, false, false, .done⟩

/-- Takes in the record of a finished successor. -/
def absorb (r s : Record) : Record :=
  { r with
    reaches := r.reaches || s.reaches
    avoids := r.avoids || (if s.reaches then s.avoids else true)
    loops := r.loops || s.loops }

/-- Notes a loop. -/
def markLoop (r : Record) : Record := { r with loops := true }

/-- Finishes a vertex. -/
def finish (r : Record) : Record := { r with phase := .done }

/-- The three facts by name. -/
def render (r : Record) : String :=
  "reaches_final=" ++ toString r.reaches ++ " has_avoiding_path=" ++ toString r.avoids ++
    " on_cycle=" ++ toString r.loops

@[simp] theorem phase_absorb (r s : Record) : (r.absorb s).phase = r.phase := rfl

@[simp] theorem phase_markLoop (r : Record) : r.markLoop.phase = r.phase := rfl

@[simp] theorem phase_finish (r : Record) : r.finish.phase = .done := rfl

end Record

end Waymark
