/-!
# Parsing expressions

Recognition with ordered choice, greedy repetition and lookahead, over a list of characters. Besides its result,
every parser answers which terminals failed furthest into the text (`Failures`), also in branches that were given
up later. This is what a rejected text is blamed on.

- `Failures.merge` keeps the further of two positions, and joins the terminals that failed at equal ones.
- `Parser.quiet` and `Parser.absent` recognise without blaming anything.
- `Parser.many` stops where its parser fails. A parser that consumes something each time succeeds at most once for
  each remaining character, which bounds the repetition.
-/

namespace Waymark

/-! ## Positions and failures -/

/-- A place in the text: how many characters lie before it, and those that follow. -/
structure Cursor where
  position : Nat
  rest : List Char

/-- The place after the next `n` characters, of which `rest` is what remains. -/
def Cursor.advance (c : Cursor) (n : Nat) (rest : List Char) : Cursor :=
  ⟨c.position + n, rest⟩

/-- What a grammar may ask for at a position. -/
inductive Terminal where
  | literal (text : String)
  | endOfInput
  deriving DecidableEq

/-- A literal is named between double quotes. -/
def Terminal.render : Terminal → String
  | literal text => "\"" ++ text ++ "\""
  | endOfInput => "end of input"

/-- The furthest position where a terminal failed, and the terminals that failed there. -/
structure Failures where
  position : Nat
  expected : List Terminal

namespace Failures

/-- Nothing has failed yet. -/
def none : Failures := ⟨0, []⟩

/-- One terminal failed at `c`. -/
def single (c : Cursor) (t : Terminal) : Failures := ⟨c.position, [t]⟩

/-- The further of two failures; at equal positions, the terminals of both. -/
def merge (a b : Failures) : Failures :=
  if a.position < b.position then b
  else if b.position < a.position then a
  else ⟨a.position, (a.expected ++ b.expected).eraseDups⟩

end Failures

/-! ## Parsers -/

/-- What a parser answers: a value with the place after it, unless it fails, and what failed on the way. -/
structure Reply (α : Type) where
  result : Option (α × Cursor)
  failures : Failures

/-- A parser reads from a place in the text. -/
def Parser (α : Type) : Type := Cursor → Reply α

namespace Parser

variable {α β : Type}

/-- Reads nothing and succeeds. -/
def succeed (a : α) : Parser α := fun c => ⟨some (a, c), .none⟩

/-- Reads with `p`, then with what `f` makes of its value. -/
def andThen (p : Parser α) (f : α → Parser β) : Parser β := fun c =>
  match p c with
  | ⟨none, e⟩ => ⟨none, e⟩
  | ⟨some (a, c'), e⟩ => let r := f a c'; ⟨r.result, e.merge r.failures⟩

instance : Monad Parser where
  pure := succeed
  bind := andThen

/-- Reads with `p`, and with `q` where `p` fails. -/
def orElse (p q : Parser α) : Parser α := fun c =>
  match p c with
  | ⟨none, e⟩ => let r := q c; ⟨r.result, e.merge r.failures⟩
  | r => r

instance : OrElse (Parser α) where
  orElse p q := p.orElse (q ())

/-- Reads with `p` and blames nothing. -/
def quiet (p : Parser α) : Parser α := fun c => ⟨(p c).result, .none⟩

/-- Succeeds, and reads nothing, where `p` fails; blames nothing. -/
def absent (p : Parser α) : Parser Unit := fun c =>
  match (p c).result with
  | none => ⟨some ((), c), .none⟩
  | some _ => ⟨none, .none⟩

/-- Reads `text`. -/
def literal (text : String) : Parser Unit := fun c =>
  match text.toList.isPrefixOf? c.rest with
  | some rest => ⟨some ((), c.advance text.length rest), .none⟩
  | none => ⟨none, .single c (.literal text)⟩

/-- Reads one character with a property; blames nothing. -/
def next (p : Char → Bool) : Parser Char := fun c =>
  match c.rest with
  | a :: rest => if p a then ⟨some (a, c.advance 1 rest), .none⟩ else ⟨none, .none⟩
  | [] => ⟨none, .none⟩

/-- Reads all characters up to the first without a property. -/
def span (p : Char → Bool) : Parser (List Char) := fun c =>
  let run := c.rest.takeWhile p
  ⟨some (run, c.advance run.length (c.rest.dropWhile p)), .none⟩

/-- Succeeds only where the text ends. -/
def endOfInput : Parser Unit := fun c =>
  match c.rest with
  | [] => ⟨some ((), c), .none⟩
  | _ :: _ => ⟨none, .single c .endOfInput⟩

/-- Repeats `p` until it fails, at most `bound` times. -/
def manyUpTo (p : Parser α) : (bound : Nat) → Parser (List α)
  | 0 => succeed []
  | bound + 1 => fun c =>
    match p c with
    | ⟨none, e⟩ => ⟨some ([], c), e⟩
    | ⟨some (a, c'), e⟩ =>
      let r := manyUpTo p bound c'
      ⟨r.result.map fun (as, c'') => (a :: as, c''), e.merge r.failures⟩

/-- Repeats `p`, which has to consume something each time, until it fails. -/
def many (p : Parser α) : Parser (List α) := fun c =>
  manyUpTo p (c.rest.length + 1) c

/-- Reads with `p` once or more, with `separator` between; a separator that no `p` follows is left unread. -/
def separated (p : Parser α) (separator : Parser Unit) : Parser (List α) := do
  let first ← p
  let others ← many (do separator; p)
  return first :: others

end Parser

end Waymark
