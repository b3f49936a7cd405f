import Chainlet.Narration.Building
import Chainlet.Narration.Generating
import Chainlet.Program.OfSource

/-!
# Narration/Source — all that is told on the way from a source to its module

A source that cannot be read is not told of at all.
-/

namespace Chainlet

/-- **The notes on a source** that is read, built and generated with some options. -/
def sourceNotes (o : Options) (source : String) : List Note :=
  match Tree.ofSource source with
  | .error _ => []
  | .ok tree =>
    .parsed tree.children.length ::
      match Program.ofTree tree with
      | .error _ => []
      | .ok p => p.buildingNotes ++ p.generatingNotes o

end Chainlet
