import Waymark.Program.Parser
import Waymark.Program.WellFormed

/-!
# Program sources

A source text denotes a program if the grammar accepts it and the program it spells is well formed.
-/

namespace Waymark

/-- Why a source denotes no program. -/
inductive SourceError where
  | grammar (e : ParseFailure)
  | fault (e : Fault)
  deriving DecidableEq

/-- The text of an error in a source. -/
def SourceError.message : SourceError → String
  | grammar e => e.message
  | fault e => e.message

/-- A program with no fault, or its first fault. -/
def Program.verify (p : Program) : Except SourceError Unit :=
  match p.fault? with
  | some e => .error (.fault e)
  | none => .ok ()

/-- The program that a source denotes. -/
def Program.parse (source : String) : Except SourceError Program := do
  let p ← (Program.read source.toList).mapError .grammar
  p.verify
  return p

end Waymark
