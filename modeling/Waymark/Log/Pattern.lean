import Waymark.Text.Alphanumeric
import Waymark.Text.Space

/-!
# Patterns

A directive may ask that a field has a certain value, and gives the value as a regular expression. Nothing that is
logged here has such a field, so a pattern never has to match; but a filter whose pattern makes no sense is refused.
`patternFault?` reads a pattern from left to right and says why it makes none, if so. A number stands for itself.

Patterns are about Unicode text until the flag `u` is taken away, and from then on about bytes, where they must not
match bytes that are not text. There are no tables of Unicode properties, so the classes `\d`, `\s`, `\w` and the flag
`i` can be used with bytes only, and the classes `\p` not at all. The ends of a Unicode word cannot be told either,
which is a fault of its own. A closing brace ends a field and never reaches a pattern; so an opening one, outside of
the brackets of a class, is always a fault.
-/

namespace Waymark

/-- Why a text is no pattern. -/
inductive PatternFault where
  | malformed
  | unicodeWordBoundary
  deriving DecidableEq

/-- The text of a fault. -/
def PatternFault.message : PatternFault → String
  | malformed => "error building NFA"
  | unicodeWordBoundary =>
    "unsupported regex feature for DFAs: cannot build DFAs for regexes with Unicode word boundaries; switch to ASCII " ++
      "word boundaries, or heuristically enable Unicode word boundaries or use a different regex engine"

namespace Pattern

/-! ## Numbers -/

/-- Whether a text is digits with a point before, among or after them, or without one. -/
def isDecimal (text : List Char) : Bool :=
  let (whole, rest) := text.span Char.isDigit
  let fraction := rest.drop 1
  (rest.isEmpty || rest.head? = some '.') && fraction.all Char.isDigit && !(whole ++ fraction).isEmpty

/-- Whether a text is an exponent: digits, with or without a sign. -/
def isExponent (text : List Char) : Bool :=
  let digits := if text.head? = some '+' || text.head? = some '-' then text.tail else text
  !digits.isEmpty && digits.all Char.isDigit

/-- Whether a text is a number, infinity or no number at all, in letters of any case, with or without a sign. -/
def isNumber (text : List Char) : Bool :=
  let unsigned := (if text.head? = some '+' || text.head? = some '-' then text.tail else text).map Char.toLower
  let (mantissa, exponent) := unsigned.span (· ≠ 'e')
  ["inf", "infinity", "nan"].contains (String.ofList unsigned) ||
    (isDecimal mantissa && (exponent.isEmpty || isExponent exponent.tail))

/-! ## Flags and layout -/

/-- The flags that decide what a pattern may hold. -/
structure Flags where
  /-- Blanks and comments are left out. -/
  extended : Bool
  /-- The pattern is about Unicode text. -/
  unicode : Bool
  /-- Letters stand for both their cases. -/
  ignoreCase : Bool

/-- The letters of all flags. -/
def flagLetters : List Char := ['i', 'm', 's', 'U', 'u', 'R', 'x']

/-- Sets flags by their letters, or takes them away after a minus sign. -/
def Flags.set (f : Flags) (on : Bool) : List Char → Flags
  | [] => f
  | '-' :: rest => f.set false rest
  | 'x' :: rest => ({ f with extended := on } : Flags).set on rest
  | 'u' :: rest => ({ f with unicode := on } : Flags).set on rest
  | 'i' :: rest => ({ f with ignoreCase := on } : Flags).set on rest
  | _ :: rest => f.set on rest

/-- The text after blanks, and after comments from a hash sign to the end of the line. -/
def skipExtended (inComment : Bool) : List Char → List Char
  | [] => []
  | c :: rest =>
    if inComment then skipExtended (c ≠ '\n') rest
    else if isSpace c then skipExtended false rest
    else if c = '#' then skipExtended true rest
    else c :: rest

/-- The text after what the flags leave out. -/
def Flags.skip (f : Flags) (text : List Char) : List Char :=
  if f.extended then skipExtended false text else text

/-! ## Atoms -/

/-- What a pattern is made of. -/
inductive Atom where
  /-- A character; `byte` is whether it is written as the number of a byte. -/
  | literal (c : Char) (byte : Bool)
  /-- Any character. -/
  | dot
  /-- The start or end of a line or text. -/
  | anchor
  /-- The start or end of a word, or neither. -/
  | wordBoundary
  /-- Digits, blanks or word characters, or all others. -/
  | shorthand (negated : Bool)

/-- The value of a hexadecimal digit. -/
def hexDigit? (c : Char) : Option Nat :=
  if c.isDigit then some (c.toNat - '0'.toNat)
  else if 'a' ≤ c.toLower && c.toLower ≤ 'f' then some (c.toLower.toNat - 'a'.toNat + 10)
  else none

/-- Reads a number of hexadecimal digits. -/
def readHex (f : Flags) : Nat → Nat → List Char → Option (Nat × List Char)
  | 0, value, text => some (value, text)
  | count + 1, value, text =>
    match f.skip text with
    | c :: rest => (hexDigit? c).bind fun d => readHex f count (16 * value + d) rest
    | [] => none

/-- Reads a character by its number. -/
def readCode (f : Flags) (digits : Nat) (text : List Char) : Option (Atom × List Char) :=
  (readHex f digits 0 text).bind fun (n, rest) =>
    if n.isValidChar then some (.literal (Char.ofNat n) (digits = 2), rest) else none

/-- The control character that a letter names. -/
def controlChar? : Char → Option Char
  | 'a' => some '\x07'
  | 'f' => some '\x0c'
  | 't' => some '\t'
  | 'n' => some '\n'
  | 'r' => some '\r'
  | 'v' => some '\x0b'
  | _ => none

/-- Reads what follows a backslash. -/
def readEscape (f : Flags) : List Char → Option (Atom × List Char)
  | [] => none
  | c :: rest =>
    match c with
    | 'x' => readCode f 2 rest
    | 'u' => readCode f 4 rest
    | 'U' => readCode f 8 rest
    | 'd' | 's' | 'w' => some (.shorthand false, rest)
    | 'D' | 'S' | 'W' => some (.shorthand true, rest)
    | 'A' | 'z' => some (.anchor, rest)
    | 'b' | 'B' | '<' | '>' => some (.wordBoundary, rest)
    | c =>
      match controlChar? c with
      | some control => some (.literal control false, rest)
      | none => if c.toNat < 0x80 && !c.isAlphanum then some (.literal c false, rest) else none

/-- Whether flags allow an atom outside of classes. -/
def Flags.allow (f : Flags) : Atom → Bool
  | .literal c byte => if f.unicode then !f.ignoreCase else !byte || c.toNat < 0x80
  | .dot => f.unicode
  | .shorthand negated => !f.unicode && !negated
  | .anchor | .wordBoundary => true

/-! ## Classes -/

/-- The bytes beyond ASCII that a class matches, by their numbers. -/
abbrev HighBytes := Nat → Bool

/-- The bytes of no class. -/
def noBytes : HighBytes := fun _ => false

/-- Whether no byte beyond ASCII matches. -/
def HighBytes.isAscii (b : HighBytes) : Bool :=
  (List.range 0x80).all fun n => !b (0x80 + n)

/-- A class as it is read: what is waiting on the left of an operator, and the members after it. -/
structure OpenClass where
  negated : Bool
  left : HighBytes → HighBytes
  members : HighBytes

namespace OpenClass

/-- A class without members so far. -/
def start (negated : Bool) : OpenClass := ⟨negated, id, noBytes⟩

/-- More members. -/
def add (k : OpenClass) (b : HighBytes) : OpenClass :=
  { k with members := fun n => k.members n || b n }

/-- An operator, applied to what stands on both its sides. -/
def operate (k : OpenClass) (op : Bool → Bool → Bool) : OpenClass :=
  let left := k.left k.members
  { k with left := fun right n => op (left n) (right n), members := noBytes }

/-- The bytes of the class once it is closed. -/
def close (k : OpenClass) : HighBytes := fun n => k.left k.members n != k.negated

end OpenClass

/-- The operator between members at the start of a text, as it is written. -/
def readOperator? : List Char → Option ((Bool → Bool → Bool) × List Char)
  | '&' :: '&' :: rest => some (and, rest)
  | '-' :: '-' :: rest => some (fun a b => a && !b, rest)
  | '~' :: '~' :: rest => some (xor, rest)
  | _ => none

/-- The names of classes of ASCII characters. -/
def namedClasses : List String :=
  ["alnum", "alpha", "ascii", "blank", "cntrl", "digit", "graph", "lower", "print", "punct", "space", "upper", "word",
    "xdigit"]

/-- Reads a class by its name, such as `[:alpha:]`, after its bracket; the answer is whether it is negated. -/
def readNamedClass? : List Char → Option (Bool × List Char)
  | ':' :: rest =>
    let negated := rest.head? = some '^'
    match (if negated then rest.tail else rest).span (· ≠ ':') with
    | (name, ':' :: ']' :: rest) => if namedClasses.contains (String.ofList name) then some (negated, rest) else none
    | _ => none
  | _ => none

/-- Reads one character or class of characters among members. -/
def readMember (f : Flags) : List Char → Option (Atom × List Char)
  | [] => none
  | '\\' :: rest => readEscape f rest
  | c :: rest => some (.literal c false, rest)

/-- Whether flags allow an atom among members: in bytes, only what is a byte. -/
def Flags.allowMember (f : Flags) : Atom → Bool
  | .literal c byte => f.unicode || c.toNat < 0x80 || (!byte && c.toNat ≤ 0xff)
  | .shorthand negated => !f.unicode && !negated
  | .dot | .anchor | .wordBoundary => false

/-- Reads a member of a class: a character, a range of them or a shorthand. -/
def readMembers (f : Flags) (text : List Char) : Option (HighBytes × List Char) := do
  let (first, rest) ← readMember f text
  guard (f.allowMember first)
  let rest := f.skip rest
  let alone : Option (HighBytes × List Char) := match first with
    | .literal c _ => some (fun n => n = c.toNat, rest)
    | _ => some (noBytes, rest)
  match rest with
  | '-' :: after =>
    let after := f.skip after
    if after.head? = some ']' || after.head? = some '-' then alone
    else
      let (last, rest) ← readMember f after
      guard (f.allowMember last)
      match first, last with
      | .literal a _, .literal b _ => if a ≤ b then some (fun n => a.toNat ≤ n && n ≤ b.toNat, rest) else none
      | _, _ => none
  | _ => alone

/-- Reads hyphens at the start of a class; they are members. -/
def skipHyphens (f : Flags) : Nat → List Char → List Char
  | fuel + 1, '-' :: rest => skipHyphens f fuel (f.skip rest)
  | _, text => text

/-- Opens a class after its bracket. A closing bracket is a member if it comes first. -/
def openClass (f : Flags) (text : List Char) : OpenClass × List Char :=
  let text := f.skip text
  let negated := text.head? = some '^'
  let text := if negated then f.skip text.tail else text
  let rest := skipHyphens f text.length text
  (.start negated, if text.head? = some ']' then f.skip text.tail else rest)

/-- Reads classes until the outermost is closed; `classes` are the open ones, the innermost first. -/
def readClasses (f : Flags) : Nat → List OpenClass → List Char → Option (List Char)
  | fuel + 1, k :: outer, text =>
    match f.skip text with
    | [] => none
    | '[' :: rest =>
      match readNamedClass? rest with
      | some (negated, rest) => if f.unicode || !negated then readClasses f fuel (k :: outer) rest else none
      | none =>
        let (inner, rest) := openClass f rest
        readClasses f fuel (inner :: k :: outer) rest
    | ']' :: rest =>
      if !f.unicode && !k.close.isAscii then none
      else match outer with
        | [] => some rest
        | o :: outer => readClasses f fuel (o.add k.close :: outer) rest
    | text =>
      match readOperator? text with
      | some (op, rest) => readClasses f fuel (k.operate op :: outer) rest
      | none => (readMembers f text).bind fun (b, rest) => readClasses f fuel (k.add b :: outer) rest
  | _, _, _ => none

/-- Reads a class after its bracket. -/
def readClass (f : Flags) (text : List Char) : Option (List Char) :=
  if f.unicode && f.ignoreCase then none
  else
    let (k, rest) := openClass f text
    readClasses f (rest.length + 1) [k] rest

/-! ## Groups -/

/-- Whether a text can name a group. -/
def isGroupName : List Char → Bool
  | [] => false
  | c :: rest =>
    (c = '_' || isAlphabetic c) && rest.all fun d => d = '_' || d = '.' || d = '[' || d = ']' || isAlphanumeric d

/-- A place in a pattern. -/
structure State where
  flags : Flags
  /-- The flags outside of each open group, the innermost first. -/
  outer : List Flags
  /-- Whether there is something to repeat. -/
  repeatable : Bool
  /-- Whether the end of a Unicode word was asked for. -/
  boundary : Bool
  /-- The names of groups so far. -/
  names : List (List Char)

namespace State

/-- Where a pattern starts. -/
def start : State := ⟨⟨false, true, false⟩, [], false, false, []⟩

/-- Opens a group with some flags inside. -/
def openGroup (s : State) (inner : Flags) : State :=
  { s with flags := inner, outer := s.flags :: s.outer, repeatable := false }

/-- Closes the innermost group. -/
def closeGroup? (s : State) : Option State :=
  match s.outer with
  | f :: outer => some { s with flags := f, outer := outer, repeatable := true }
  | [] => none

/-- Opens a group with a name, which is read up to its angle bracket. -/
def readNamedGroup (s : State) (text : List Char) : Option (State × List Char) :=
  match text.span (· ≠ '>') with
  | (name, '>' :: rest) =>
    if isGroupName name && !s.names.contains name then
      some ({ s.openGroup s.flags with names := name :: s.names }, rest)
    else none
  | _ => none

/-- Reads flags, for a group or for the rest of the group they stand in. -/
def readFlags (s : State) (text : List Char) : Option (State × List Char) :=
  let (letters, rest) := text.span fun c => c ≠ ':' && c ≠ ')'
  let known := letters.all fun c => c = '-' || flagLetters.contains c
  if !known || letters.eraseDups.length ≠ letters.length || letters.getLast? = some '-' then none
  else match rest with
    | ':' :: rest => some (s.openGroup (s.flags.set true letters), rest)
    | ')' :: rest =>
      if letters.isEmpty then none
      else some ({ s with flags := s.flags.set true letters, repeatable := false }, rest)
    | _ => none

/-- Reads the start of a group after its parenthesis. Groups that look ahead or behind do not exist. -/
def readGroup (s : State) (text : List Char) : Option (State × List Char) :=
  match s.flags.skip text with
  | '?' :: 'P' :: '<' :: rest => s.readNamedGroup rest
  | '?' :: '<' :: rest => s.readNamedGroup rest
  | '?' :: rest => s.readFlags rest
  | rest => some (s.openGroup s.flags, rest)

/-- Reads one atom. -/
def readAtom (s : State) (text : List Char) : Option (State × List Char) := do
  let (atom, rest) ← match text with
    | [] => none
    | '.' :: rest => some (Atom.dot, rest)
    | '^' :: rest | '$' :: rest => some (Atom.anchor, rest)
    | text => readMember s.flags text
  guard (s.flags.allow atom)
  let unicodeBoundary := match atom with
    | .wordBoundary => s.flags.unicode
    | _ => false
  return ({ s with repeatable := true, boundary := s.boundary || unicodeBoundary }, rest)

/-- Reads a pattern to its end. -/
def read : Nat → State → List Char → Option State
  | 0, _, _ => none
  | fuel + 1, s, text =>
    match s.flags.skip text with
    | [] => if s.outer.isEmpty then some s else none
    | '(' :: rest => (s.readGroup rest).bind fun (s, rest) => read fuel s rest
    | ')' :: rest => s.closeGroup?.bind fun s => read fuel s rest
    | '|' :: rest => read fuel { s with repeatable := false } rest
    | '?' :: rest | '*' :: rest | '+' :: rest => if s.repeatable then read fuel s rest else none
    | '[' :: rest => (readClass s.flags rest).bind fun rest => read fuel { s with repeatable := true } rest
    | '\x7b' :: _ => none
    | text => (s.readAtom text).bind fun (s, rest) => read fuel s rest

end State

end Pattern

/-- Why a text is no pattern, if it is none. Every step of reading takes a character, so the fuel suffices. -/
def patternFault? (text : List Char) : Option PatternFault :=
  if Pattern.isNumber text then none
  else match Pattern.State.start.read (text.length + 1) text with
    | none => some .malformed
    | some s => if s.boundary then some .unicodeWordBoundary else none

end Waymark
