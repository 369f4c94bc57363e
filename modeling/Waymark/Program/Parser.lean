import Waymark.Parsing
import Waymark.Program.Basic

/-!
# Reading programs

The grammar, with layout allowed before and after every token:

    program     = function*
    function    = "fn" name "{" block* "}"
    block       = label ":" instruction*
    instruction = "call" name | "op" name | "br" label | "cbr" label "," label
                | "switch" label ("," label)* | "ret" | "unreachable"

Names and labels are identifiers, and may be spelled like keywords. So an instruction does not start where an
identifier and a colon stand: that is the next block. Layout is blanks, line ends and comments from `//` to the end
of the line. Identifiers, commas and layout are never blamed for a failure.

`Program.read` accepts exactly the texts of this grammar and says nothing about the program they denote.
-/

namespace Waymark

/-! ## Characters -/

/-- Whether a character may start an identifier: a letter or an underscore. -/
def isWordStart (c : Char) : Bool :=
  c.isAlpha || c = '_'

/-- Whether a character may stand in an identifier after its start. -/
def isWordChar (c : Char) : Bool :=
  isWordStart c || c.isDigit || c = '.'

/-- Whether a character ends a line. -/
def isLineEnd (c : Char) : Bool :=
  c = '\n' || c = '\r'

/-- Whether a character is layout by itself. -/
def isBlank (c : Char) : Bool :=
  c = ' ' || c = '\t' || isLineEnd c

/-- The place after all layout at a position, inside a comment or not. -/
def skipLayout (inComment : Bool) (position : Nat) : List Char → Cursor
  | [] => ⟨position, []⟩
  | c :: rest =>
    if inComment then skipLayout (!isLineEnd c) (position + 1) rest
    else if isBlank c then skipLayout false (position + 1) rest
    -- the second slash is the first character of the comment
    else if c = '/' ∧ rest.head? = some '/' then skipLayout true (position + 1) rest
    else ⟨position, c :: rest⟩

/-! ## Tokens -/

namespace Grammar

/-- Blanks, line ends and comments. -/
def layout : Parser Unit := fun c => ⟨some ((), skipLayout false c.position c.rest), .none⟩

/-- A word of the language, which must not run on into a longer one. -/
def keyword (word : String) : Parser Unit := do
  .literal word
  .absent (.next isWordChar)
  layout

/-- A mark of punctuation. -/
def mark (text : String) : Parser Unit := do
  .literal text
  layout

/-- A comma, which is never blamed. -/
def comma : Parser Unit := (mark ",").quiet

/-- A name or a label: the longest run of word characters at a word's start. -/
def identifier : Parser String := do
  let first ← .next isWordStart
  let others ← .span isWordChar
  layout
  return String.ofList (first :: others)

/-! ## Rules -/

/-- What an instruction may be. -/
def instructionKind : Parser Instruction :=
  (do keyword "call"; return .call (← identifier)) <|>
  (do keyword "op"; return .op (← identifier)) <|>
  (do keyword "br"; return .br (← identifier)) <|>
  (do
    keyword "cbr"
    let thenTarget ← identifier
    comma
    return .cbr thenTarget (← identifier)) <|>
  (do keyword "switch"; return .switch (← identifier.separated comma)) <|>
  (do keyword "ret"; return .ret) <|>
  (do keyword "unreachable"; return .unreachable)

/-- An instruction does not start where a block does. -/
def instruction : Parser Instruction := do
  .absent (do let _ ← identifier; .literal ":")
  instructionKind

/-- A label and the instructions under it. -/
def block : Parser Block := do
  let label ← identifier
  mark ":"
  return ⟨label, ← instruction.many⟩

/-- A function with its blocks between braces. -/
def function : Parser Function := do
  keyword "fn"
  let name ← identifier
  mark "\x7b"
  let blocks ← block.many
  mark "\x7d"
  return ⟨name, blocks⟩

/-- Functions up to the end of the text. -/
def program : Parser Program := do
  layout
  let functions ← function.many
  .endOfInput
  return ⟨functions⟩

end Grammar

/-! ## Whole texts -/

/-- Why a text is not in the grammar: what was asked for, where, and what stands there. -/
structure ParseFailure where
  position : Nat
  expected : List Terminal
  found : String
  deriving DecidableEq

namespace ParseFailure

/-- How many characters of the text a failure quotes. -/
def quoteLength : Nat := 20

/-- A failure in `text`, with the characters that stand at its position. -/
def ofFailures (text : List Char) (e : Failures) : ParseFailure :=
  ⟨e.position, e.expected, String.ofList ((text.drop e.position).take quoteLength)⟩

/-- The terminals asked for, in alphabetical order. -/
def expectation (e : ParseFailure) : String :=
  match e.expected.map Terminal.render with
  | [word] => word
  | words => "one of " ++ ", ".intercalate (words.mergeSort fun a b => decide (a ≤ b))

/-- The text of a failure. -/
def message (e : ParseFailure) : String :=
  "Parse failure: expecting '" ++ e.expectation ++ "', found '" ++ e.found ++ "'."

end ParseFailure

/-- Reads a text by the grammar alone. -/
def Program.read (text : List Char) : Except ParseFailure Program :=
  match Grammar.program ⟨0, text⟩ with
  | ⟨some (p, _), _⟩ => .ok p
  | ⟨none, e⟩ => .error (.ofFailures text e)

end Waymark
