import Waymark.Colour
import Waymark.Graph.Basic
import Waymark.Log.Level
import Waymark.Program.Printer
import Waymark.Program.Split
import Waymark.Search.Analysis

/-!
# Events

What happens while a program is checked and is worth a line in the log. An event knows its level, the part of the
tool that it comes from, and its text.
-/

namespace Waymark

/-- A way to speak to the user through the log. -/
inductive Tone where
  | green
  | red
  | yellowWarning
  | redError
  deriving DecidableEq

/-- Something worth a line in the log. -/
inductive Event where
  /-- A block was cut in front of a tracepoint call. -/
  | cut (c : Cut)
  /-- A program was split. -/
  | splitDone (newBlocks : Nat)
  /-- A tracepoint moved from one block to another. -/
  | rebound (name : String) (previous current : BlockName)
  /-- A control-flow graph was built. -/
  | built (vertices edges tracepoints : Nat)
  /-- A search found a loop. -/
  | backEdge (source target : Vertex)
  /-- A search ended. -/
  | analyzed (start final : Vertex) (visited size : Nat) (record : Record)
  /-- There was nothing to search for. -/
  | skipped (start final : String) (startFound finalFound : Bool)
  /-- The user is told something. -/
  | notice (tone : Tone) (text : String)
  deriving DecidableEq

namespace Event

/-- How grave an event is. -/
def level : Event → Level
  | cut _ | backEdge _ _ => .trace
  | splitDone _ | built _ _ _ | analyzed _ _ _ _ _ | skipped _ _ _ _ => .debug
  | rebound _ _ _ => .warn
  | notice .green _ | notice .red _ => .info
  | notice .yellowWarning _ => .warn
  | notice .redError _ => .error

/-- The part of the tool that an event comes from. -/
def target : Event → String
  | cut _ | splitDone _ => "tracecheck_ir::split"
  | rebound _ _ _ | built _ _ _ => "tracecheck_ir::cfg"
  | backEdge _ _ | analyzed _ _ _ _ _ => "tracecheck_core::analyzer"
  | skipped _ _ _ _ => "tracecheck_core::query"
  | notice _ _ => "tracecheck_tracing"

/-- The text of an event. -/
def message : Event → String
  | cut c => c.function ++ ": split " ++ c.label ++ " before " ++ c.before.render
  | splitDone n => "split off " ++ toString n ++ " blocks at tracepoint calls"
  | rebound name previous current =>
    "tracepoint `" ++ name ++ "` appears in " ++ previous.render ++ " and " ++ current.render ++ ", using " ++
      current.render
  | built vertices edges tracepoints =>
    "built graph with " ++ toString vertices ++ " vertices, " ++ toString edges ++ " edges and " ++
      toString tracepoints ++ " tracepoints"
  | backEdge source target => "back edge " ++ source.render ++ " -> " ++ target.render
  | analyzed start final visited size record =>
    "analyzed " ++ start.render ++ " -> " ++ final.render ++ ": visited " ++ toString visited ++ " of " ++
      toString size ++ " vertices, start " ++ record.render
  | skipped start final startFound finalFound =>
    "skipping traversal, start `" ++ start ++ "` found: " ++ toString startFound ++ ", final `" ++ final ++
      "` found: " ++ toString finalFound
  | notice .green text => Colour.green.paint text
  | notice .red text => Colour.red.paint text
  | notice .yellowWarning text => Colour.yellow.paint text
  | notice .redError text => Colour.red.paint text

end Event

/-- A value with the events on the way to it. -/
structure Logged (α : Type) where
  value : α
  events : List Event

/-- The events of splitting a program. -/
def Split.events (s : Split) : List Event :=
  s.cuts.map .cut ++ [.splitDone s.newBlocks]

/-- The events of a search. -/
def Analysis.events (a : Analysis) : List Event :=
  a.backEdges.map (fun (v, w) => .backEdge v w) ++
    [.analyzed a.start a.final a.visited a.records.size a.startRecord]

end Waymark
