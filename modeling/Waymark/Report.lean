import Waymark.Colour
import Waymark.Outcome

/-!
# Reports

An outcome as it is shown to people, with the verdict in colour, and as a JSON object for programs.
-/

namespace Waymark

/-- What the JSON form of an outcome holds. -/
structure Report where
  outcome : Outcome
  exitCode : Nat
  verdict : String
  deriving DecidableEq

namespace Outcome

/-- An outcome with its exit status and the text of its verdict. -/
def report (o : Outcome) : Report := ⟨o, o.encode, o.verdict.message⟩

/-- The flags line by line, then the verdict: green for success, red for all else. -/
def renderText (o : Outcome) : String :=
  let colour := if o.verdict = .success then Colour.green else .red
  o.render ++ colour.paint o.verdict.message ++ "\n"

end Outcome

namespace Report

/-- The fields of the JSON form with their values as they are written; no verdict has a character to escape. -/
def fields (r : Report) : List (String × String) :=
  [("start_not_found", toString r.outcome.startNotFound),
    ("final_not_found", toString r.outcome.finalNotFound),
    ("final_unreachable", toString r.outcome.finalUnreachable),
    ("loop_found", toString r.outcome.loopFound),
    ("final_avoidable", toString r.outcome.finalAvoidable),
    ("exit_code", toString r.exitCode),
    ("verdict", "\"" ++ r.verdict ++ "\"")]

/-- A JSON object with one field on a line, indented by two blanks. -/
def renderJson (r : Report) : String :=
  "\x7b\n" ++ ",\n".intercalate (r.fields.map fun (name, value) => "  \"" ++ name ++ "\": " ++ value) ++ "\n\x7d"

end Report

end Waymark
