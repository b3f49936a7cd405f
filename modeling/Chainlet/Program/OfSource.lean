import Chainlet.Grammar.Source
import Chainlet.Program.OfTree

/-!
# Program/OfSource — programs from source text

`Program.ofSource` reads the parse tree of a source and then the program of that tree. A `ReadError`
says which of the two steps failed; either way it is a fault of the source.
-/

namespace Chainlet

/-- Why a source is no program. -/
inductive ReadError where
  | unreadable (reason : Unreadable)
  | malformed (reason : Malformed)
deriving DecidableEq, Repr

/-- The message of an error and the byte it is about. -/
def ReadError.fault : ReadError → Fault
  | unreadable reason => reason.fault
  | malformed reason => reason.fault

/-- **The program of a source.** -/
def Program.ofSource (source : String) : Except ReadError Program := do
  let tree ← (Tree.ofSource source).mapError .unreadable
  (Program.ofTree tree).mapError .malformed

end Chainlet
