import Waymark.Event
import Waymark.Graph.Labels
import Waymark.Outcome

/-!
# Queries

The trace from one named vertex of a graph to another. If a name is unknown, the outcome says so and nothing is
searched.
-/

namespace Waymark

/-- What becomes of the trace from the vertex called `start` to the one called `final`. -/
def Graph.query (g : Graph) (labels : Labels) (start final : String) : Except Misuse (Logged Outcome) :=
  match labels.get? start, labels.get? final with
  | some s, some f => do
    let a ← g.analyze s f
    return ⟨← Outcome.ofRecord true true a.startRecord, a.events⟩
  | s?, f? => do
    return ⟨← Outcome.ofRecord s?.isSome f?.isSome none, [.skipped start final s?.isSome f?.isSome]⟩

end Waymark
