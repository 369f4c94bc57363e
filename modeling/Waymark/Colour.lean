/-!
# Coloured text

Terminals show a text in colour between two escape sequences.
-/

namespace Waymark

/-- A colour of the terminal. -/
inductive Colour where
  | red
  | green
  | yellow
  deriving DecidableEq

namespace Colour

/-- The number of a foreground colour. -/
def code : Colour → String
  | red => "31"
  | green => "32"
  | yellow => "33"

/-- A text in colour. -/
def paint (c : Colour) (text : String) : String :=
  "\x1b[" ++ c.code ++ "m" ++ text ++ "\x1b[0m"

end Colour

end Waymark
