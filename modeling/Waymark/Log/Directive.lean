import Waymark.Log.Level
import Waymark.Log.Pattern

/-!
# Directives

A directive sets a threshold for some events. A threshold is a name in letters of any case or a number from 0 to 5.
Alone it is for all events; for some it is written `target[span{field=pattern}]=threshold`, where every part may be
left out, save that something has to stand before the equals sign. Without a threshold everything passes.

The parts of a directive are found in its text without the white space at the ends, but they are cut from the whole
text at the same offsets, counted in bytes. So white space before a directive moves all its parts, and white space
after it belongs to its last part.
-/

namespace Waymark

/-! ## Directives and events -/

/-- What a directive asks of the fields of an event: that there is one of a name, or of a name and a value. -/
structure FieldTest where
  name : String
  value : Option String
  deriving DecidableEq

/-- A threshold for the events whose target starts with `target`, that stand in a span and have a field, where the
directive asks for one. -/
structure Directive where
  target : String
  threshold : Threshold
  span : Option String := none
  field : Option FieldTest := none
  deriving DecidableEq

/-- The only field of every event is its text. -/
def messageField : String := "message"

namespace Directive

/-- Whether a directive is for events of a target. Events stand in no span, and directives that ask for a value are
about spans. -/
def applies (d : Directive) (target : String) : Bool :=
  d.target.toList.isPrefixOf target.toList && d.span.isNone &&
    d.field.all fun f => f.name = messageField && f.value.isNone

/-- Directives with longer targets come first, of equal ones those that ask for a field. -/
def rank (d : Directive) : Nat :=
  2 * d.target.length + if d.field.isSome then 1 else 0

end Directive

/-! ## Errors -/

/-- Why a text is no filter. -/
inductive FilterError where
  | badThreshold
  | badDirective
  | badPattern (fault : PatternFault)
  deriving DecidableEq

/-- The text of an error. -/
def FilterError.message : FilterError → String
  | badThreshold =>
    "error parsing level filter: expected one of \"off\", \"error\", \"warn\", \"info\", \"debug\", \"trace\", " ++
      "or a number 0-5"
  | badDirective => "invalid filter directive"
  | badPattern fault => "invalid field filter: " ++ fault.message

/-! ## Parts of a text -/

/-- The number of bytes of a text. -/
def byteLength (text : List Char) : Nat :=
  text.foldl (fun n c => n + c.utf8Size) 0

/-- A text from an offset in bytes on. -/
def dropBytes : Nat → List Char → List Char
  | 0, text => text
  | _ + 1, [] => []
  | n + 1, c :: rest => dropBytes (n + 1 - c.utf8Size) rest

/-- The first bytes of a text. -/
def takeBytes : Nat → List Char → List Char
  | 0, _ => []
  | _ + 1, [] => []
  | n + 1, c :: rest => c :: takeBytes (n + 1 - c.utf8Size) rest

/-- The part of a text from an offset on that is as long as another text. -/
def cutLike (text : List Char) (offset : Nat) (part : List Char) : List Char :=
  takeBytes (byteLength part) (dropBytes offset text)

/-! ## Thresholds -/

/-- The number that digits spell, with an optional plus sign before them. -/
def readNumber? (text : List Char) : Option Nat :=
  let digits := if text.head? = some '+' then text.tail else text
  if digits.isEmpty || !digits.all Char.isDigit then none
  else some (digits.foldl (fun n c => 10 * n + (c.toNat - '0'.toNat)) 0)

/-- The threshold that a text names; no text at all names errors. -/
def Threshold.read? (text : List Char) : Option Threshold :=
  if text.isEmpty then some (.upTo .error)
  else match readNumber? text with
    | some n => ofRank? n
    | none => ofName? (String.ofList (text.map Char.toLower))

/-- The threshold after an equals sign: everything, if nothing is there. -/
def Threshold.readOrAll (text : List Char) : Except FilterError Threshold :=
  if text.isEmpty then .ok (.upTo .trace)
  else match Threshold.read? text with
    | some t => .ok t
    | none => .error .badThreshold

/-! ## Reading directives -/

/-- Whether a character may start a target or a threshold. -/
def isDirectiveStart (c : Char) : Bool :=
  isAlphanumeric c || c = '-' || c = ':' || c = '_'

/-- Reads what is asked of a field. The pattern is what stands between the first equals sign and the second. -/
def FieldTest.read (text : List Char) : Except FilterError FieldTest :=
  match text.span (· ≠ '=') with
  | ([], []) => .error .badDirective
  | (name, []) => .ok ⟨String.ofList name, none⟩
  | (name, _ :: rest) =>
    let pattern := rest.takeWhile (· ≠ '=')
    match patternFault? pattern with
    | some fault => .error (.badPattern fault)
    | none => .ok ⟨String.ofList name, some (String.ofList pattern)⟩

namespace Directive

/-- Reads what follows the brackets: nothing, or a threshold. -/
def readEnd (d : Directive) (text : List Char) (offset : Nat) : List Char → Except FilterError Directive
  | [] => .ok d
  | '=' :: _ => do return { d with threshold := ← Threshold.readOrAll (dropBytes (offset + 1) text) }
  | _ => .error .badDirective

/-- Reads from inside the brackets on. -/
def readBrackets (d : Directive) (text : List Char) (offset : Nat) (rest : List Char) :
    Except FilterError Directive := do
  let (name, rest) := rest.span fun c => c ≠ ']' && c ≠ '\x7b'
  let span := String.ofList (cutLike text offset name)
  let offset := offset + byteLength name + 1
  match rest with
  | ']' :: rest => readEnd { d with span := some span } text offset rest
  | _ :: rest =>
    match rest.span (· ≠ '\x7d') with
    | (field, '\x7d' :: rest) =>
      let test ← FieldTest.read (cutLike text offset field)
      match rest with
      | ']' :: rest =>
        let d := { d with span := if span.isEmpty then none else some span, field := some test }
        d.readEnd text (offset + byteLength field + 2) rest
      | _ => .error .badDirective
    | _ => .error .badDirective
  | [] => .error .badDirective

/-- Reads one directive. -/
def read (text : List Char) : Except FilterError Directive :=
  let all : Threshold := .upTo .trace
  match trimSpace text with
  | [] => .error .badDirective
  | '[' :: rest => ({ target := "", threshold := all } : Directive).readBrackets text 1 rest
  | c :: body =>
    if !isDirectiveStart c then .error .badDirective
    else
      let (part, rest) := (c :: body).span fun c => c ≠ '=' && c ≠ '['
      let target := String.ofList (cutLike text 0 part)
      let d : Directive := { target := target, threshold := all }
      match rest with
      | [] =>
        match Threshold.read? text with
        | some t => .ok { target := "", threshold := t }
        | none => .ok { target := String.ofList text, threshold := all }
      | '[' :: rest => d.readBrackets text (byteLength part + 1) rest
      | rest => d.readEnd text (byteLength part) rest

end Directive

end Waymark
