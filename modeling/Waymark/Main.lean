import Waymark.Tool

/-!
# The program

Reads arguments, environment and the file, and writes what the tool answers.
-/

namespace Waymark

/-- A word on arguments that make no sense. -/
def UsageError.message : UsageError → String
  | .displayHelp | .displayVersion => ""
  | .unknownArgument => "unexpected argument"
  | .tooManyValues => "unexpected value for a flag"
  | .argumentConflict => "an option was given more than once"
  | .invalidValue => "a value is missing or empty"
  | .missingRequiredArgument => "required arguments are missing"

/-- The text of a file. -/
def readSource (path : String) : IO (Except ReadError String) := do
  if let some e := pathFault? path then return .error e
  try
    return decodeUtf8 (← IO.FS.readBinFile path)
  catch e =>
    return .error (match e with
      | .noFileOrDirectory .. | .noSuchThing .. => .notFound
      | .inappropriateType _ 20 _ => .notADirectory
      | .inappropriateType .. => .isADirectory
      | .invalidArgument _ 36 _ => .nameTooLong
      | e => .other (toString e))

/-- Writes what a run leaves behind. -/
def Finished.emit (f : Finished) : IO UInt32 := do
  IO.print f.output.stdout
  IO.eprint f.output.stderr
  return f.code.toUInt32

end Waymark

open Waymark in
/-- Runs the tool on the arguments of the command line. -/
def main (arguments : List String) : IO UInt32 := do
  let marker ← IO.getEnv markerVariable
  match Options.read arguments marker with
  | .ok options =>
    let content ← readSource options.irFile
    (options.run (← IO.getEnv Logger.filterVariable) content).emit
  | .error e =>
    match e.answer? marker with
    | some finished => finished.emit
    | none => (Finished.mk failureCode ⟨"", "error: " ++ e.message ++ "\n"⟩).emit
