/-!
# Programs

A program is a list of functions, a function a list of labelled blocks, and a block a list of instructions.

- Control leaves a block only through its terminator, and only to blocks of the same function
  (`Block.successors`).
- A tracepoint is a call whose callee starts with a marker; what follows the marker is the tracepoint's name
  (`Instruction.tracepoint?`).

Nothing here asks a program to make sense: labels may repeat and targets may be missing. The rules for that are in
`Waymark.Program.WellFormed`.
-/

namespace Waymark

/-! ## Instructions -/

/-- The marker of tracepoint calls unless another one is given. -/
def defaultMarker : String := "besc_tracepoint_"

/-- One instruction of a block. -/
inductive Instruction where
  | call (callee : String)
  | op (name : String)
  | br (target : String)
  | cbr (thenTarget elseTarget : String)
  | switch (targets : List String)
  | ret
  | unreachable
  deriving DecidableEq

namespace Instruction

/-- The labels that an instruction may jump to, in the order it names them. -/
def targets : Instruction → List String
  | br t => [t]
  | cbr t e => [t, e]
  | switch ts => ts
  | _ => []

/-- Whether an instruction ends its block. -/
def isTerminator : Instruction → Bool
  | call _ | op _ => false
  | _ => true

/-- The name of the tracepoint that an instruction marks: what follows `marker` in a callee, unless that is empty. -/
def tracepoint? (marker : String) : Instruction → Option String
  | call callee =>
    match marker.toList.isPrefixOf? callee.toList with
    | some (c :: cs) => some (String.ofList (c :: cs))
    | _ => none
  | _ => none

/-- Whether an instruction marks a tracepoint. -/
def isTracepoint (marker : String) (i : Instruction) : Bool :=
  (i.tracepoint? marker).isSome

end Instruction

/-! ## Blocks -/

/-- A labelled list of instructions. -/
structure Block where
  label : String
  body : List Instruction
  deriving DecidableEq

namespace Block

/-- The last instruction, if it ends the block. -/
def terminator? (b : Block) : Option Instruction :=
  b.body.getLast?.filter (·.isTerminator)

/-- The labels that a block may jump to. -/
def successors (b : Block) : List String :=
  match b.terminator? with
  | some i => i.targets
  | none => []

/-- The names of the tracepoints that a block marks, in order. -/
def tracepoints (marker : String) (b : Block) : List String :=
  b.body.filterMap (·.tracepoint? marker)

/-- The name of the tracepoint that the first instruction marks. -/
def leadingTracepoint? (marker : String) (b : Block) : Option String :=
  b.body.head?.bind (·.tracepoint? marker)

end Block

/-! ## Functions and programs -/

/-- A named list of blocks; control enters at the first one. -/
structure Function where
  name : String
  blocks : List Block
  deriving DecidableEq

namespace Function

/-- The labels of the blocks, in order. -/
def labels (f : Function) : List String :=
  f.blocks.map (·.label)

/-- The first block with a label. -/
def block? (f : Function) (label : String) : Option Block :=
  f.blocks.find? (·.label = label)

end Function

/-- A whole program. -/
structure Program where
  functions : List Function
  deriving DecidableEq

namespace Program

/-- The first function with a name. -/
def function? (p : Program) (name : String) : Option Function :=
  p.functions.find? (·.name = name)

/-- The number of blocks in all functions. -/
def blockCount (p : Program) : Nat :=
  (p.functions.flatMap (·.blocks)).length

end Program

/-! ## Names of blocks -/

/-- A block named from outside its function. -/
structure BlockName where
  function : String
  block : String
  deriving DecidableEq

/-- A block name is written `function.block`. -/
def BlockName.render (n : BlockName) : String :=
  n.function ++ "." ++ n.block

/-- The names of all blocks, function by function. -/
def Program.blockNames (p : Program) : List BlockName :=
  p.functions.flatMap fun f => f.blocks.map fun b => ⟨f.name, b.label⟩

end Waymark
