import Waymark.Event
import Waymark.Log.Filter

/-!
# The log on the console

Events that pass the filter are written as lines, each to one of the two output streams. Characters that could steer
the terminal are written as escapes (`escape`), so a logged text cannot.
-/

namespace Waymark

/-! ## Output -/

/-- What a run writes to its two output streams. -/
structure Output where
  stdout : String
  stderr : String
  deriving DecidableEq

namespace Output

/-- Nothing is written. -/
def empty : Output := ⟨"", ""⟩

/-- Both streams one after the other. -/
def append (a b : Output) : Output := ⟨a.stdout ++ b.stdout, a.stderr ++ b.stderr⟩

instance : Append Output := ⟨append⟩

end Output

/-- Which stream events go to: the error stream from warnings up, or always the same one. -/
inductive WriterMode where
  | byLevel
  | stdout
  | stderr
  deriving DecidableEq

/-- A line on the stream for its level. -/
def WriterMode.line (mode : WriterMode) (level : Level) (text : String) : Output :=
  let toStderr : Bool := match mode with
    | byLevel => level.rank ≤ Level.warn.rank
    | stdout => false
    | stderr => true
  if toStderr then ⟨"", text ++ "\n"⟩ else ⟨text ++ "\n", ""⟩

/-! ## Escapes -/

/-- A number below 256 as two hexadecimal digits. -/
def hexPair (n : Nat) : List Char := [Nat.digitChar (n / 16), Nat.digitChar (n % 16)]

/-- A character as it is logged: bell, backspace, form feed, escape, delete and U+0080 to U+009F are spelled out. -/
def escapeChar (c : Char) : List Char :=
  let n := c.toNat
  if n = 0x07 || n = 0x08 || n = 0x0c || n = 0x1b || n = 0x7f then '\\' :: 'x' :: hexPair n
  else if 0x80 ≤ n && n ≤ 0x9f then '\\' :: 'u' :: '\x7b' :: hexPair n ++ ['\x7d']
  else [c]

/-- A text as it is logged. -/
def escape (text : String) : String :=
  String.ofList (text.toList.flatMap escapeChar)

/-! ## Loggers -/

/-- What the user asked of the log. -/
structure LogSettings where
  verbosity : Option Nat
  silent : Option Bool
  threshold : Option Threshold
  mode : WriterMode
  deriving DecidableEq

/-- The threshold that the settings force: an explicit one, else by verbosity, else silence. -/
def LogSettings.forced (s : LogSettings) : Option Threshold :=
  let byVerbosity := match s.verbosity with
    | none | some 0 => none
    | some 1 => some (.upTo .debug)
    | some _ => some (.upTo .trace)
  let bySilence := if s.silent = some true then some Threshold.off else none
  s.threshold <|> byVerbosity <|> bySilence

/-- Which events are written, and where. -/
structure Logger where
  filter : Filter
  mode : WriterMode
  deriving DecidableEq

namespace Logger

/-- The name of the variable that holds the filter. -/
def filterVariable : String := "RUST_LOG"

/-- The logger for some settings and the text of a filter, if there is one. A forced threshold goes before the
filter; a text that is no filter counts as `info` and is an event of its own. -/
def setUp (s : LogSettings) (filter : Option String) : Logged Logger :=
  let standard := Filter.all (.upTo .info)
  let (given, events) := match filter with
    | none => (standard, [])
    | some text =>
      match Filter.read text with
      | .ok f => (f, [])
      | .error e =>
        (standard, [.notice .yellowWarning ("Ignoring invalid `" ++ filterVariable ++ "`: " ++ e.message)])
  ⟨⟨(s.forced.map Filter.all).getD given, s.mode⟩, events⟩

/-- What is written for an event. -/
def write (l : Logger) (e : Event) : Output :=
  if l.filter.admits e.target e.level then l.mode.line e.level (escape e.message) else .empty

/-- What is written for events one after the other. -/
def writeAll (l : Logger) (events : List Event) : Output :=
  events.foldl (fun o e => o ++ l.write e) .empty

end Logger

end Waymark
