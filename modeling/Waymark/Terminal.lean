/-!
# Text without terminal sequences

A text for a terminal may hold sequences that steer it. Each starts with an escape character: a command of a few
characters, a control sequence with parameters, or a string, which goes on until something ends it. `plainText` is
what is left of a text without its sequences: the characters that a terminal shows, and of the control characters only
tabs, line ends, form feeds and carriage returns.

These four are kept also inside commands and control sequences. The text after one of them is shown, and the next
character that is not shown takes the sequence up again.
-/

namespace Waymark

/-- Where in a text with sequences a character stands. -/
inductive SequenceState where
  /-- Outside of all sequences. -/
  | outside
  /-- After an escape character. -/
  | command
  /-- In a command of more than one character. -/
  | longCommand
  /-- In a control sequence. -/
  | control
  /-- At the start of the parameters of a device string. -/
  | device
  /-- After a parameter of a device string. -/
  | deviceParameter
  /-- After the parameters of a device string. -/
  | deviceIntermediate
  /-- In a string that the byte 9C ends. -/
  | string
  /-- In a string that a bell ends. -/
  | title
  deriving DecidableEq

/-- Whether a character is a control character that lays out text. -/
def isLayoutControl (c : Char) : Bool :=
  c = '\t' || c = '\n' || c = '\x0c' || c = '\r'

/-- Whether a character outside of all sequences is kept. -/
def isShown (c : Char) : Bool :=
  isLayoutControl c || (0x20 ≤ c.toNat && c.toNat ≠ 0x7f)

namespace SequenceState

/-- Whether a character is kept. -/
def keeps : SequenceState → Char → Bool
  | outside, c => isShown c
  | command, c | longCommand, c | control, c => isLayoutControl c
  | _, _ => false

/-- The state after a character that is not kept. An escape character starts a sequence wherever it stands, and the
characters 18 and 1A end every one. -/
def next (s : SequenceState) (c : Char) : SequenceState :=
  let n := c.toNat
  let within (first last : Nat) : Bool := first ≤ n && n ≤ last
  if n = 0x1b then command
  else if n = 0x18 || n = 0x1a then outside
  else match s with
    | outside => outside
    | command =>
      if within 0x20 0x2f then longCommand
      else if c = '[' then control
      else if c = ']' then title
      else if c = 'P' then device
      else if c = 'X' || c = '^' || c = '_' then string
      else if within 0x30 0x7e then outside
      else command
    | longCommand => if within 0x30 0x7e then outside else longCommand
    | control => if within 0x40 0x7e then outside else control
    | device =>
      if within 0x20 0x2f then deviceIntermediate
      else if within 0x30 0x3f then deviceParameter
      else if within 0x40 0x7e then string
      else device
    | deviceParameter =>
      if within 0x20 0x2f then deviceIntermediate
      else if within 0x3c 0x7e then string
      else deviceParameter
    | deviceIntermediate => if within 0x30 0x7e then string else deviceIntermediate
    | string => if (String.utf8EncodeChar c).contains 0x9c then outside else string
    | title => if n = 0x07 then outside else title

end SequenceState

/-- The characters that are kept, from a state on; `showing` is whether the last character was. Characters beyond
ASCII end a sequence when they are shown. -/
def keptFrom (s : SequenceState) (showing : Bool) : List Char → List Char
  | [] => []
  | c :: rest =>
    if s.keeps c || (showing && isShown c) then
      c :: keptFrom (if c.toNat < 0x80 then s else .outside) true rest
    else keptFrom (s.next c) false rest

/-- A text without its sequences. -/
def plainText (text : String) : String :=
  String.ofList (keptFrom .outside false text.toList)

end Waymark
