import Waymark.Program.Basic

/-!
# Printing programs

The text of a program has one line for each instruction, label and brace, and one blank line between functions.
It is built as a list of characters, so that it can be compared with what the parser reads.
-/

namespace Waymark

/-- Texts with `, ` between them. -/
def commaSeparated (words : List String) : List Char :=
  [',', ' '].intercalate (words.map (·.toList))

/-- The text of an instruction. -/
def Instruction.chars : Instruction → List Char
  | call callee => "call ".toList ++ callee.toList
  | op name => "op ".toList ++ name.toList
  | br target => "br ".toList ++ target.toList
  | cbr t e => "cbr ".toList ++ commaSeparated [t, e]
  | switch ts => "switch ".toList ++ commaSeparated ts
  | ret => "ret".toList
  | unreachable => "unreachable".toList

/-- A label on a line of its own, then the indented instructions. -/
def Block.chars (b : Block) : List Char :=
  b.label.toList ++ [':', '\n'] ++ b.body.flatMap fun i => "    ".toList ++ i.chars ++ ['\n']

/-- A header with the name, the blocks, and a closing brace. -/
def Function.chars (f : Function) : List Char :=
  "fn ".toList ++ f.name.toList ++ [' ', '{', '\n'] ++ f.blocks.flatMap Block.chars ++ ['}', '\n']

/-- The functions with a blank line between them. -/
def Program.chars (p : Program) : List Char :=
  ['\n'].intercalate (p.functions.map Function.chars)

/-- The text of an instruction. -/
def Instruction.render (i : Instruction) : String :=
  String.ofList i.chars

/-- The text of a program. -/
def Program.render (p : Program) : String :=
  String.ofList p.chars

end Waymark
