import Waymark.Program.Basic

/-!
# Command-line options

Arguments are read from left to right; options and operands mix. What an argument says takes effect only when the
next one is understood (`Draft.settle`): so an unknown option is reported before a value that is missing right in
front of it, and that one before a request for help.
-/

namespace Waymark

/-- What the command line asks for. -/
structure Options where
  irFile : String
  start : String
  final : String
  marker : String
  json : Bool
  printIr : Bool
  printGraph : Bool
  verbose : Nat
  silent : Bool
  deriving DecidableEq

/-- Why there are no options: the user asks for something else, or the arguments make no sense. -/
inductive UsageError where
  | displayHelp
  | displayVersion
  | unknownArgument
  | tooManyValues
  | argumentConflict
  | invalidValue
  | missingRequiredArgument
  deriving DecidableEq

/-! ## Flags -/

/-- An option without a value. -/
inductive Flag where
  | json
  | printIr
  | printGraph
  | verbose
  | silent
  | help
  | version
  deriving DecidableEq

namespace Flag

/-- A flag by its name. -/
def ofName? : String → Option Flag
  | "json" => some json
  | "print-ir" => some printIr
  | "print-graph" => some printGraph
  | "verbose" => some verbose
  | "silent" => some silent
  | "help" => some help
  | "version" => some version
  | _ => none

/-- A flag by its letter. -/
def ofLetter? : Char → Option Flag
  | 'v' => some verbose
  | 's' => some silent
  | 'h' => some help
  | 'V' => some version
  | _ => none

end Flag

/-! ## Reading -/

/-- The latest argument, if it has not taken effect yet. -/
inductive Pending where
  | operand (text : String)
  /-- The marker option, with its value once that is read. -/
  | marker (value : Option String)
  deriving DecidableEq

/-- What was read so far. -/
structure Draft where
  operands : List String
  marker : Option String
  json : Bool
  printIr : Bool
  printGraph : Bool
  verbose : Nat
  silent : Bool
  /-- Whether all further arguments are operands. -/
  operandsOnly : Bool
  pending : Option Pending
  deriving DecidableEq

namespace Draft

/-- Nothing was read yet. -/
def empty : Draft := ⟨[], none, false, false, false, 0, false, false, none⟩

/-- How often the verbose flag counts. -/
def mostVerbose : Nat := 255

/-- Sets the marker, once. -/
def setMarker (d : Draft) (value : String) : Except UsageError Draft :=
  if d.marker.isSome then .error .argumentConflict else .ok { d with marker := some value }

/-- Lets the latest argument take effect. The first operand, a path, must not be empty. -/
def settle (d : Draft) : Except UsageError Draft :=
  let settled := { d with pending := none }
  match d.pending with
  | none => .ok d
  | some (.operand text) =>
    if d.operands.isEmpty && text.isEmpty then .error .invalidValue
    else .ok { settled with operands := d.operands ++ [text] }
  | some (.marker none) => .error .invalidValue
  | some (.marker (some value)) => settled.setMarker value

/-- Sets a flag; only the verbose flag may come again. -/
def setFlag (d : Draft) (flag : Flag) : Except UsageError Draft := do
  let d ← d.settle
  match flag with
  | .json => if d.json then .error .argumentConflict else return { d with json := true }
  | .printIr => if d.printIr then .error .argumentConflict else return { d with printIr := true }
  | .printGraph => if d.printGraph then .error .argumentConflict else return { d with printGraph := true }
  | .verbose => return { d with verbose := min (d.verbose + 1) mostVerbose }
  | .silent => if d.silent then .error .argumentConflict else return { d with silent := true }
  | .help => .error .displayHelp
  | .version => .error .displayVersion

/-- Reads an option by its name, with a value if one is attached. -/
def readNamed (d : Draft) (name : String) (value : Option String) : Except UsageError Draft :=
  if name = "tracepoint-prefix" then do
    let d ← d.settle
    match value with
    | some value => d.setMarker value
    | none => return { d with pending := some (.marker none) }
  else match Flag.ofName? name, value with
    | none, _ => .error .unknownArgument
    | some _, some _ => .error .tooManyValues
    | some flag, none => d.setFlag flag

/-- Reads flags by their letters. -/
def readLetters (d : Draft) (letters : List Char) : Except UsageError Draft :=
  letters.foldlM (fun d c => match Flag.ofLetter? c with
    | some flag => d.setFlag flag
    | none => .error .unknownArgument) d

/-- Reads an operand, of which there are three. -/
def readOperand (d : Draft) (text : String) : Except UsageError Draft := do
  let count := d.operands.length + (match d.pending with | some (.operand _) => 1 | _ => 0)
  if count < 3 then
    let d ← d.settle
    return { d with pending := some (.operand text) }
  else .error .unknownArgument

/-- Reads an argument that is no option: the value that the marker option waits for, or an operand. -/
def readPlain (d : Draft) (text : String) : Except UsageError Draft :=
  if d.pending = some (.marker none) then return { d with pending := some (.marker (some text)) }
  else d.readOperand text

/-- Reads one argument. -/
def read (d : Draft) (argument : String) : Except UsageError Draft :=
  if d.operandsOnly then d.readOperand argument
  else match argument.toList with
    | ['-', '-'] => return { d with operandsOnly := true }
    | '-' :: '-' :: option =>
      match option.span (· ≠ '=') with
      | (name, '=' :: value) => d.readNamed (String.ofList name) (some (String.ofList value))
      | _ => d.readNamed (String.ofList option) none
    | '-' :: c :: letters => d.readLetters (c :: letters)
    | _ => d.readPlain argument

end Draft

/-- Reads the arguments; `marker` holds when the option is not given, and the default marker when it is missing too. -/
def Options.read (arguments : List String) (marker : Option String) : Except UsageError Options := do
  let d ← arguments.foldlM Draft.read .empty
  let d ← d.settle
  match d.operands with
  | [irFile, start, final] =>
    return {
      irFile, start, final
      marker := (d.marker <|> marker).getD defaultMarker
      json := d.json
      printIr := d.printIr
      printGraph := d.printGraph
      verbose := d.verbose
      silent := d.silent }
  | _ => .error .missingRequiredArgument

end Waymark
