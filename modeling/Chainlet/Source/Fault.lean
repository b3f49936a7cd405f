import Chainlet.Text.Position

/-!
# Source/Fault — a message about a place in a source

A `Fault` is what a reader of sources complains of: a message and the byte it is about. The place is
given as a byte by `Fault.display` and as line and column by `Fault.position`.
-/

namespace Chainlet

/-- A message about a byte of a source. -/
structure Fault where
  message : String
  offset : Nat
deriving DecidableEq, Repr

namespace Fault

/-- The line and column of a fault in its source. -/
def position (f : Fault) (source : String) : Position := positionAt f.offset source.toList

/-- The message and the byte on one line. -/
def display (f : Fault) : String := f.message ++ " (at byte " ++ toString f.offset ++ ")"

end Fault

end Chainlet
