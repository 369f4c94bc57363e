import Waymark.Program.Parser

/-!
# Spellings of a program

The texts of a program, told without a parser: its tokens in order (`Program.tokens`), with layout before, between
and after them (`Spells`). Two words need some layout between them; a comment without a line end can only come last.
-/

namespace Waymark

/-! ## Layout -/

/-- Layout that anything may follow: blanks, line ends, and comments with their line ends. -/
inductive Layout : List Char → Prop where
  | nil : Layout []
  | blank {c : Char} {cs : List Char} (hc : isBlank c = true) (h : Layout cs) : Layout (c :: cs)
  | comment {text cs : List Char} {c : Char} (ht : ∀ d ∈ text, isLineEnd d = false) (hc : isLineEnd c = true)
      (h : Layout cs) : Layout ('/' :: '/' :: text ++ c :: cs)

/-- Layout at the end of a text, where a comment may run out. -/
inductive LastLayout : List Char → Prop where
  | layout {cs : List Char} (h : Layout cs) : LastLayout cs
  | comment {cs text : List Char} (h : Layout cs) (ht : ∀ d ∈ text, isLineEnd d = false) :
      LastLayout (cs ++ '/' :: '/' :: text)

/-! ## Tokens -/

/-- A word or a mark of punctuation. -/
inductive Token where
  | word (text : String)
  | mark (c : Char)
  deriving DecidableEq

namespace Token

/-- The characters of a token. -/
def chars : Token → List Char
  | word text => text.toList
  | mark c => [c]

/-- Whether a token is a word. -/
def isWord : Token → Bool
  | word _ => true
  | mark _ => false

end Token

/-- Words with commas between them. -/
def commaTokens (words : List String) : List Token :=
  (words.map Token.word).intersperse (.mark ',')

/-- The tokens of an instruction. -/
def Instruction.tokens : Instruction → List Token
  | call callee => [.word "call", .word callee]
  | op name => [.word "op", .word name]
  | br target => [.word "br", .word target]
  | cbr t e => .word "cbr" :: commaTokens [t, e]
  | switch ts => .word "switch" :: commaTokens ts
  | ret => [.word "ret"]
  | unreachable => [.word "unreachable"]

/-- The tokens of a block. -/
def Block.tokens (b : Block) : List Token :=
  .word b.label :: .mark ':' :: b.body.flatMap Instruction.tokens

/-- The tokens of a function. -/
def Function.tokens (f : Function) : List Token :=
  [.word "fn", .word f.name, .mark '{'] ++ f.blocks.flatMap Block.tokens ++ [.mark '}']

/-- The tokens of a program. -/
def Program.tokens (p : Program) : List Token := p.functions.flatMap Function.tokens

/-! ## Texts -/

/-- A text spells tokens; `afterWord` says whether the token before them is a word. -/
inductive Spells : (afterWord : Bool) → List Token → List Char → Prop where
  | last {afterWord : Bool} {cs : List Char} (h : LastLayout cs) : Spells afterWord [] cs
  | token {afterWord : Bool} {layout rest : List Char} {t : Token} {ts : List Token} (hl : Layout layout)
      (hw : afterWord = true → t.isWord = true → layout ≠ []) (h : Spells t.isWord ts rest) :
      Spells afterWord (t :: ts) (layout ++ t.chars ++ rest)

/-! ## Programs with a spelling -/

/-- An identifier is a word's start with word characters behind it. -/
def IsIdentifier (name : String) : Prop :=
  ∃ c cs, name.toList = c :: cs ∧ isWordStart c = true ∧ ∀ d ∈ cs, isWordChar d = true

/-- The names in an instruction. -/
def Instruction.names : Instruction → List String
  | call callee => [callee]
  | op name => [name]
  | i => i.targets

/-- An instruction can be spelled if its names are identifiers and it is no empty switch. -/
def Instruction.Spellable (i : Instruction) : Prop :=
  (∀ n ∈ i.names, IsIdentifier n) ∧ i ≠ .switch []

/-- A block can be spelled if its label is an identifier and its instructions can be spelled. -/
def Block.Spellable (b : Block) : Prop :=
  IsIdentifier b.label ∧ ∀ i ∈ b.body, i.Spellable

/-- A function can be spelled if its name is an identifier and its blocks can be spelled. -/
def Function.Spellable (f : Function) : Prop :=
  IsIdentifier f.name ∧ ∀ b ∈ f.blocks, b.Spellable

/-- A program can be spelled if all its functions can: its names are identifiers and it has no empty switch. -/
def Program.Spellable (p : Program) : Prop :=
  ∀ f ∈ p.functions, f.Spellable

end Waymark
