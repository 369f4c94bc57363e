import Waymark.Program.Basic

/-!
# Splitting blocks at tracepoints

A block is cut in front of every tracepoint call but one at its head. The first piece keeps the label; every further
piece is a new block right behind it, and each piece but the last ends with a branch to the next. So every
tracepoint heads a block of its own, and the program runs as before.

The new blocks of a block `l` are labelled `l.1`, `l.2` and so on, leaving out the labels that the function has
already (`freshLabels`). Of `taken.length + k` different labels at least `k` are not in `taken`, so it is enough to
look at that many.
-/

namespace Waymark

/-! ## Fresh labels -/

/-- The label of a block made from the block `label`. -/
def numberedLabel (label : String) (n : Nat) : String :=
  label ++ "." ++ toString n

/-- The first `k` labels numbered from `n` that are not taken, of the next `candidates` ones. -/
def freshLabelsFrom (taken : List String) (label : String) : (candidates n k : Nat) → List String
  | candidates + 1, n, k + 1 =>
    let l := numberedLabel label n
    if l ∈ taken then freshLabelsFrom taken label candidates (n + 1) (k + 1)
    else l :: freshLabelsFrom taken label candidates (n + 1) k
  | _, _, _ => []

/-- The first `k` labels made from `label` that are not taken. -/
def freshLabels (taken : List String) (label : String) (k : Nat) : List String :=
  freshLabelsFrom taken label (taken.length + k) 1 k

/-! ## Pieces -/

/-- A piece of a body that starts at a cut. -/
structure Piece where
  head : Instruction
  rest : List Instruction
  deriving DecidableEq

/-- The instructions of a piece. -/
def Piece.body (p : Piece) : List Instruction := p.head :: p.rest

/-- What precedes the first tracepoint call of a list, and the pieces that start at tracepoint calls. -/
def cutAtTracepoints (marker : String) : List Instruction → List Instruction × List Piece
  | [] => ([], [])
  | i :: is =>
    let (head, pieces) := cutAtTracepoints marker is
    if i.isTracepoint marker then ([], ⟨i, head⟩ :: pieces) else (i :: head, pieces)

/-- The pieces of a block; a tracepoint call at its head is no cut. -/
def Block.pieces (marker : String) (b : Block) : List Instruction × List Piece :=
  match b.body with
  | [] => ([], [])
  | i :: is =>
    let (head, pieces) := cutAtTracepoints marker is
    (i :: head, pieces)

/-- Blocks that run into each other, from one called `label` through those of `links`. -/
def chain (label : String) (body : List Instruction) : (links : List (String × Piece)) → List Block
  | [] => [⟨label, body⟩]
  | (next, piece) :: links => ⟨label, body ++ [.br next]⟩ :: chain next piece.body links

/-! ## Cuts -/

/-- A cut that was made: in which function, in which block, and in front of what. -/
structure Cut where
  function : String
  label : String
  before : Instruction
  deriving DecidableEq

/-- The cuts between the blocks of a chain. -/
def chainCuts (function label : String) : (links : List (String × Piece)) → List Cut
  | [] => []
  | (next, piece) :: links => ⟨function, label, piece.head⟩ :: chainCuts function next links

/-! ## Functions and programs -/

/-- Splits blocks of a function in order; `taken` holds its labels and those made so far. -/
def splitBlocks (marker function : String) (taken : List String) : List Block → List Block × List Cut
  | [] => ([], [])
  | b :: bs =>
    let (head, pieces) := b.pieces marker
    let fresh := freshLabels taken b.label pieces.length
    let links := fresh.zip pieces
    let (blocks, cuts) := splitBlocks marker function (fresh ++ taken) bs
    (chain b.label head links ++ blocks, chainCuts function b.label links ++ cuts)

/-- A function after splitting, and the cuts made in it. -/
def Function.split (marker : String) (f : Function) : Function × List Cut :=
  let (blocks, cuts) := splitBlocks marker f.name f.labels f.blocks
  (⟨f.name, blocks⟩, cuts)

/-- A program after splitting, and all cuts made in it. -/
structure Split where
  program : Program
  cuts : List Cut
  deriving DecidableEq

/-- Splits every block of a program at its tracepoint calls. -/
def Program.split (marker : String) (p : Program) : Split where
  program := ⟨p.functions.map fun f => (f.split marker).1⟩
  cuts := p.functions.flatMap fun f => (f.split marker).2

/-- Every cut makes one new block. -/
def Split.newBlocks (s : Split) : Nat := s.cuts.length

end Waymark
