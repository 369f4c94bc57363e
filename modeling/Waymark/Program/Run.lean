import Mathlib.Logic.Relation
import Waymark.Program.Basic

/-!
# Runs of a program

What a program does, as far as tracepoints are concerned: control stands at an instruction (`Position`) and goes from
one to the next, or from a terminator to the first instruction of a block it names (`Program.Step`). Which of several
named blocks it goes to is open, and calls are taken to return.
-/

namespace Waymark

/-- A place in a program: the numbers of the function, of the block in it, and of the instruction in that. -/
structure Position where
  function : Nat
  block : Nat
  index : Nat
  deriving DecidableEq

namespace Program

/-- The instruction at a position. -/
def instruction? (p : Program) (q : Position) : Option Instruction := do
  let f ← p.functions[q.function]?
  let b ← f.blocks[q.block]?
  b.body[q.index]?

/-- Control goes from one position to another. -/
inductive Step (p : Program) : Position → Position → Prop where
  /-- Past an instruction that does not end its block. -/
  | next {f b k : Nat} {i : Instruction} (hi : p.instruction? ⟨f, b, k⟩ = some i) (ht : i.isTerminator = false) :
      Step p ⟨f, b, k⟩ ⟨f, b, k + 1⟩
  /-- To the start of a block that a terminator names. -/
  | jump {f b k c : Nat} {i : Instruction} {fn : Function} {target : Block}
      (hi : p.instruction? ⟨f, b, k⟩ = some i) (hf : p.functions[f]? = some fn) (hc : fn.blocks[c]? = some target)
      (ht : target.label ∈ i.targets) : Step p ⟨f, b, k⟩ ⟨f, c, 0⟩

/-- A run may go from one position to another. -/
def Reaches (p : Program) : Position → Position → Prop := Relation.ReflTransGen p.Step

/-- A step of a run that has not come to `goal` yet. -/
def StepShort (p : Program) (goal q r : Position) : Prop := q ≠ goal ∧ p.Step q r

/-- Some run from `q` goes on for ever and never comes to `goal`. -/
def Diverges (p : Program) (goal q : Position) : Prop :=
  ∃ run : Nat → Position, run 0 = q ∧ ∀ n, p.StepShort goal (run n) (run (n + 1))

/-- All positions, in the order of the text. -/
def positions (p : Program) : List Position :=
  p.functions.zipIdx.flatMap fun (f, i) => f.blocks.zipIdx.flatMap fun (b, j) =>
    (List.range b.body.length).map fun k => ⟨i, j, k⟩

/-- The position of the last call of a tracepoint. -/
def lastCall? (p : Program) (marker name : String) : Option Position :=
  (p.positions.filter fun q => (p.instruction? q).bind (·.tracepoint? marker) = some name).getLast?

end Program

end Waymark
