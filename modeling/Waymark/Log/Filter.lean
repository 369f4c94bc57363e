import Waymark.Log.Directive

/-!
# Log filters

A filter is a list of directives, written with commas between them. Of several directives for an event the one with
the highest rank counts, and of equal ones the last. An event without a directive does not pass, so an empty filter is
silent.
-/

namespace Waymark

/-- The directives, in the order they were given. -/
structure Filter where
  directives : List Directive
  deriving DecidableEq

namespace Filter

/-- One threshold for all events. -/
def all (t : Threshold) : Filter := ⟨[{ target := "", threshold := t }]⟩

/-- The last of the directives with the highest rank, of those for events of `target`. -/
def directive? (f : Filter) (target : String) : Option Directive :=
  (f.directives.filter (·.applies target)).foldl (fun best d =>
    match best with
    | some b => if b.rank ≤ d.rank then some d else some b
    | none => some d) none

/-- Whether an event of a target and a level passes. -/
def admits (f : Filter) (target : String) (level : Level) : Bool :=
  match f.directive? target with
  | some d => d.threshold.admits level
  | none => false

end Filter

/-! ## Reading filters -/

/-- The parts of a text between commas. -/
def splitAtCommas : List Char → List (List Char)
  | [] => [[]]
  | c :: cs =>
    if c = ',' then [] :: splitAtCommas cs
    else match splitAtCommas cs with
      | part :: parts => (c :: part) :: parts
      | [] => [[c]]

/-- Reads a filter; empty parts are left out. -/
def Filter.read (text : String) : Except FilterError Filter := do
  let parts := (splitAtCommas text.toList).filter (!·.isEmpty)
  return ⟨← parts.mapM Directive.read⟩

end Waymark
