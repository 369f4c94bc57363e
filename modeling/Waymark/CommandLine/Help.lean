import Waymark.Program.Basic
import Waymark.Terminal

/-!
# Help and version

The texts that the tool prints about itself. Help is written for a terminal, with the names of options in bold, and
printed without the sequences for that; those that come with the value of the variable go with them.
-/

namespace Waymark

/-- The name of the variable that holds the marker. -/
def markerVariable : String := "TRACECHECK_TRACEPOINT_PREFIX"

/-- The version of the tool. -/
def versionText : String := "tracecheck 0.3.0\n"

namespace Help

/-- Something to be typed as it stands. -/
def literal (text : String) : String := "\x1b[1m" ++ text ++ "\x1b[0m"

/-- The title of a section. -/
def heading (text : String) : String := "\x1b[1m\x1b[4m" ++ text ++ "\x1b[0m"

/-- The column of descriptions. -/
def descriptionIndent : String := "          "

/-- A text whose lines all stand in the column of descriptions. -/
def describe (text : String) : String :=
  descriptionIndent ++ String.ofList (text.toList.flatMap fun c =>
    if c = '\n' then c :: descriptionIndent.toList else [c])

/-- How to use the tool, for a terminal; `marker` is the value of the variable, if it is set. -/
def terminalText (marker : Option String) : String :=
  "\n".intercalate [
    "Check the trace between two tracepoints of an IR program.",
    "",
    heading "Usage:" ++ " " ++ literal "tracecheck" ++ " [OPTIONS] <IR_FILE> <START> <FINAL>",
    "",
    heading "Arguments:",
    "  <IR_FILE>  Path to the IR file",
    "  <START>    The tracepoint the trace starts at",
    "  <FINAL>    The tracepoint the trace should reach",
    "",
    heading "Options:",
    "      " ++ literal "--tracepoint-prefix" ++ " <TRACEPOINT_PREFIX>",
    describe ("Name prefix of the marker functions; `call <prefix><name>` marks tracepoint `<name>` [env: " ++
      markerVariable ++ "=" ++ marker.getD "" ++ "] [default: " ++ defaultMarker ++ "]"),
    "      " ++ literal "--json",
    describe "Print the result as JSON instead of the text report",
    "      " ++ literal "--print-ir",
    describe "Print the IR after splitting blocks at tracepoints",
    "      " ++ literal "--print-graph",
    describe "Print the control-flow graph with its tracepoints",
    "  " ++ literal "-v" ++ ", " ++ literal "--verbose" ++ "...",
    describe "Use verbose output, `-vv` for trace output",
    "  " ++ literal "-s" ++ ", " ++ literal "--silent",
    describe "Silence all log output. The report and verdict are still printed",
    "  " ++ literal "-h" ++ ", " ++ literal "--help",
    describe "Print help",
    "  " ++ literal "-V" ++ ", " ++ literal "--version",
    describe "Print version",
    "",
    "The exit status is the result encoding: 16 start not found, 8 final not found, 4 final unreachable, " ++
      "2 loop found, 1 final avoidable, or-ed together. 0 means every path from start reaches final without a loop. " ++
      "Failures to read or parse the IR exit with 32.",
    ""]

end Help

/-- How to use the tool; `marker` is the value of the variable, if it is set. -/
def helpText (marker : Option String) : String := plainText (Help.terminalText marker)

end Waymark
