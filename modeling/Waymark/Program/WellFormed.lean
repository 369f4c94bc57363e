import Waymark.Program.Basic

/-!
# Well-formed programs

In a well-formed program no two functions share a name, every function has blocks, no two of which share a label,
every block ends in a terminator and holds no other, and terminators name only blocks of their own function.

`Program.WellFormed` states this. `Program.fault?` looks for the first thing wrong: functions in order, in each its
name, its emptiness and its labels before any block, and in each block the terminator before its targets.
-/

namespace Waymark

/-! ## The rules -/

/-- A block ends in its only terminator, which names labels of the function alone. -/
structure Block.WellFormed (labels : List String) (b : Block) : Prop where
  ends : ∃ i, b.body.getLast? = some i ∧ i.isTerminator = true
  only : ∀ i ∈ b.body.dropLast, i.isTerminator = false
  targets : ∀ t ∈ b.successors, t ∈ labels

/-- A function has blocks, with distinct labels, each of them well formed. -/
structure Function.WellFormed (f : Function) : Prop where
  nonempty : f.blocks ≠ []
  labels : f.labels.Nodup
  blocks : ∀ b ∈ f.blocks, b.WellFormed f.labels

/-- The functions of a program have distinct names, and each of them is well formed. -/
structure Program.WellFormed (p : Program) : Prop where
  names : (p.functions.map (·.name)).Nodup
  functions : ∀ f ∈ p.functions, f.WellFormed

/-! ## Faults -/

/-- A way to break the rules. -/
inductive Fault where
  | duplicateFunction (function : String)
  | emptyFunction (function : String)
  | duplicateBlock (function block : String)
  | missingTerminator (function block : String)
  | misplacedTerminator (function block : String)
  | missingTarget (function block target : String)
  deriving DecidableEq

/-- The text of a fault. -/
def Fault.message (e : Fault) : String :=
  "Verification failed: " ++ match e with
    | duplicateFunction f => "function " ++ f ++ " is defined more than once."
    | emptyFunction f => "function " ++ f ++ " has no blocks."
    | duplicateBlock f b => "block " ++ b ++ " is defined more than once in function " ++ f ++ "."
    | missingTerminator f b => "block " ++ b ++ " in function " ++ f ++ " is missing its terminator."
    | misplacedTerminator f b => "block " ++ b ++ " in function " ++ f ++ " has a misplaced terminator."
    | missingTarget f b t => "block " ++ b ++ " in function " ++ f ++ " branches to missing block " ++ t ++ "."

/-- The first word that stands in `seen` or earlier in the list. -/
def firstRepeat? (seen : List String) : List String → Option String
  | [] => none
  | w :: words => if w ∈ seen then some w else firstRepeat? (w :: seen) words

/-- What is wrong with the place of terminators in a block. -/
def Block.terminatorFault? (function : String) (b : Block) : Option Fault :=
  if b.body.dropLast.any (·.isTerminator) then some (.misplacedTerminator function b.label)
  else if b.terminator?.isNone then some (.missingTerminator function b.label)
  else none

/-- The first target of a block that is no label of its function. -/
def Block.targetFault? (function : String) (labels : List String) (b : Block) : Option Fault :=
  (b.successors.find? (· ∉ labels)).map (.missingTarget function b.label)

/-- The first fault inside a function. -/
def Function.fault? (f : Function) : Option Fault :=
  if f.blocks.isEmpty then some (.emptyFunction f.name)
  else match firstRepeat? [] f.labels with
    | some label => some (.duplicateBlock f.name label)
    | none => f.blocks.findSome? fun b => b.terminatorFault? f.name <|> b.targetFault? f.name f.labels

/-- The first fault of functions that follow others with the names in `seen`. -/
def Function.firstFault? (seen : List String) : List Function → Option Fault
  | [] => none
  | f :: fs =>
    if f.name ∈ seen then some (.duplicateFunction f.name)
    else f.fault? <|> firstFault? (f.name :: seen) fs

/-- The first fault of a program. -/
def Program.fault? (p : Program) : Option Fault :=
  Function.firstFault? [] p.functions

end Waymark
