import Waymark.CommandLine.Help
import Waymark.CommandLine.Options
import Waymark.Log.Console
import Waymark.Report
import Waymark.SourceFile

/-!
# The tool

One run of the command-line tool, from its options and the content of the file they name to what it writes and its
exit status. Log lines come as events happen, before the report.
-/

namespace Waymark

/-- The exit status of a run without an outcome. -/
def failureCode : Nat := 32

/-- What a run leaves behind. -/
structure Finished where
  code : Nat
  output : Output
  deriving DecidableEq

/-- What the log has to do; a JSON report keeps the output stream to itself. -/
def Options.logSettings (o : Options) : LogSettings where
  verbosity := some o.verbose
  silent := some o.silent
  threshold := none
  mode := if o.json then .stderr else .byLevel

/-- What is written about a check. -/
def Options.report (o : Options) (c : Checked) : String :=
  (if o.printIr then c.program.render ++ "\n" else "") ++
  (if o.printGraph then c.flowGraph.render ++ "\n" else "") ++
  (if o.json then c.outcome.report.renderJson ++ "\n" else c.outcome.renderText)

/-- Runs the tool; `filter` is the text of the log filter, if there is one. -/
def Options.run (o : Options) (filter : Option String) (content : Except ReadError String) : Finished :=
  let logger := Logger.setUp o.logSettings filter
  match checkFile o.irFile content o.marker o.start o.final with
  | .ok checked =>
    ⟨checked.value.outcome.encode,
      logger.value.writeAll (logger.events ++ checked.events) ++ ⟨o.report checked.value, ""⟩⟩
  | .error e =>
    ⟨failureCode, logger.value.writeAll (logger.events ++ [.notice .redError ("Error: " ++ e.paragraphs)])⟩

/-- What the user is told instead of a run: help and version are answers, all else is a failure without words. -/
def UsageError.answer? (marker : Option String) : UsageError → Option Finished
  | .displayHelp => some ⟨0, ⟨helpText marker, ""⟩⟩
  | .displayVersion => some ⟨0, ⟨versionText, ""⟩⟩
  | _ => none

end Waymark
