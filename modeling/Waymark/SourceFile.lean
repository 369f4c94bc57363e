import Waymark.Check

/-!
# Source files

Sources are read from files, by paths from a folder. Here a folder is what a run needs to know of one: its only
file. A path that leads anywhere else leads nowhere, save that the folder itself and those above it are folders.
-/

namespace Waymark

/-! ## Reading -/

/-- Why a file has no text. -/
inductive ReadError where
  | notFound
  | notADirectory
  | isADirectory
  | nameTooLong
  | nulInName
  | invalidUtf8
  | other (text : String)
  deriving DecidableEq

/-- The text of an error. -/
def ReadError.message : ReadError → String
  | notFound => "No such file or directory (os error 2)"
  | notADirectory => "Not a directory (os error 20)"
  | isADirectory => "Is a directory (os error 21)"
  | nameTooLong => "File name too long (os error 36)"
  | nulInName => "file name contained an unexpected NUL byte"
  | invalidUtf8 => "stream did not contain valid UTF-8"
  | other text => text

/-- The text that bytes encode. -/
def decodeUtf8 (bytes : ByteArray) : Except ReadError String :=
  match String.fromUTF8? bytes with
  | some text => .ok text
  | none => .error .invalidUtf8

/-! ## Paths -/

/-- The most bytes that a path may have. -/
def pathLimit : Nat := 4095

/-- The most bytes that the name of a file or folder may have. -/
def nameLimit : Nat := 255

/-- Why a path leads nowhere, whatever files there are. -/
def pathFault? (path : String) : Option ReadError :=
  if path.toList.contains '\x00' then some .nulInName
  else if path.isEmpty then some .notFound
  else if pathLimit < path.utf8ByteSize then some .nameTooLong
  else none

/-! ## Folders -/

/-- A folder with at most one file. -/
structure Folder where
  file : Option (String × ByteArray)

/-- Where a path has led so far. -/
inductive Place where
  | here
  | above
  | file (bytes : ByteArray)

namespace Folder

/-- Follows one part of a path; an empty part, as before a final slash, asks for a folder. -/
def enter (f : Folder) : Place → String → Except ReadError Place
  | .file _, _ => .error .notADirectory
  | place, "" | place, "." => .ok place
  | _, ".." => .ok .above
  | place, name =>
    if nameLimit < name.utf8ByteSize then .error .nameTooLong
    else match place, f.file with
      | .here, some (fileName, bytes) => if name = fileName then .ok (.file bytes) else .error .notFound
      | _, _ => .error .notFound

/-- The text of the file that a path leads to. -/
def read (f : Folder) (path : String) : Except ReadError String := do
  if let some e := pathFault? path then .error e
  else
    let start := if path.toList.head? = some '/' then Place.above else .here
    match ← (path.splitOn "/").foldlM f.enter start with
    | .file bytes => decodeUtf8 bytes
    | _ => .error .isADirectory

end Folder

/-! ## Checking files -/

/-- Why a file has no outcome. -/
inductive FileError where
  | unreadable (path : String) (e : ReadError)
  | rejected (path : String) (e : CheckError)
  deriving DecidableEq

namespace FileError

/-- What could not be done. -/
def context : FileError → String
  | unreadable path _ => "failed to read IR file " ++ path
  | rejected path _ => "failed to check " ++ path

/-- Why it could not be done. -/
def cause : FileError → String
  | unreadable _ e => e.message
  | rejected _ e => e.message

/-- Context and cause on one line. -/
def message (e : FileError) : String := e.context ++ ": " ++ e.cause

/-- Context and cause as paragraphs, every line of the cause indented. -/
def paragraphs (e : FileError) : String :=
  let indented := e.cause.toList.flatMap fun c => if c = '\n' then "\n    ".toList else [c]
  e.context ++ "\n\nCaused by:\n    " ++ String.ofList indented

end FileError

/-- Checks the trace between two tracepoints of the program in a file, of which `content` was read. -/
def checkFile (path : String) (content : Except ReadError String) (marker start final : String) :
    Except FileError (Logged Checked) := do
  let source ← content.mapError (.unreadable path)
  (checkSource source marker start final).mapError (.rejected path)

end Waymark
