import Waymark.Misuse
import Waymark.Search.Record

/-!
# Outcomes

What is reported about the trace from a start tracepoint to a final one: five flags, which are also an exit status
(`Outcome.encode`), and a verdict that names the gravest of them.
-/

namespace Waymark

/-- The five things that can be wrong with a trace. -/
structure Outcome where
  startNotFound : Bool
  finalNotFound : Bool
  finalUnreachable : Bool
  loopFound : Bool
  finalAvoidable : Bool
  deriving DecidableEq

/-- The gravest thing wrong with a trace. -/
inductive Verdict where
  | success
  | startNotFound
  | finalNotFound
  | finalUnreachable
  | loopFound
  | finalAvoidable
  deriving DecidableEq

/-- The text of a verdict. -/
def Verdict.message : Verdict → String
  | success => "OK"
  | startNotFound => "Start tracepoint was not found"
  | finalNotFound => "Final tracepoint was not found"
  | finalUnreachable => "No path leads from the start tracepoint to the final tracepoint"
  | loopFound => "A loop lies on the trace between the start and final tracepoints"
  | finalAvoidable => "A path leaves the start tracepoint without reaching the final tracepoint"

namespace Outcome

/-- The outcome for tracepoints that were found or not; a record of the start vertex counts only if both were. -/
def ofRecord (startFound finalFound : Bool) (record : Option Record) : Except Misuse Outcome :=
  if startFound && finalFound then
    match record with
    | some r => .ok ⟨false, false, !r.reaches, r.loops, r.avoids⟩
    | none => .error .notAnalyzed
  else .ok ⟨!startFound, !finalFound, false, false, false⟩

/-- The flags as the bits of a number. -/
def encode (o : Outcome) : Nat :=
  16 * o.startNotFound.toNat + 8 * o.finalNotFound.toNat + 4 * o.finalUnreachable.toNat +
    2 * o.loopFound.toNat + o.finalAvoidable.toNat

/-- The flags that a number stands for, if it has no other bits. -/
def decode (n : Nat) : Option Outcome :=
  if n < 32 then some ⟨n.testBit 4, n.testBit 3, n.testBit 2, n.testBit 1, n.testBit 0⟩ else none

/-- Every outcome can be told from its number. -/
theorem decode_encode (o : Outcome) : decode o.encode = some o := by
  obtain ⟨a, b, c, d, e⟩ := o
  cases a <;> cases b <;> cases c <;> cases d <;> cases e <;> rfl

/-- The flags by name, gravest first. -/
def flags (o : Outcome) : List (String × Bool) :=
  [("StartNotFound", o.startNotFound), ("FinalNotFound", o.finalNotFound),
    ("FinalUnreachable", o.finalUnreachable), ("LoopFound", o.loopFound), ("FinalAvoidable", o.finalAvoidable)]

/-- The gravest flag that is set. -/
def verdict (o : Outcome) : Verdict :=
  if o.startNotFound then .startNotFound
  else if o.finalNotFound then .finalNotFound
  else if o.finalUnreachable then .finalUnreachable
  else if o.loopFound then .loopFound
  else if o.finalAvoidable then .finalAvoidable
  else .success

/-- One line for each flag. -/
def render (o : Outcome) : String :=
  String.join (o.flags.map fun (name, value) => name ++ ": " ++ toString value ++ "\n")

end Outcome

end Waymark
