import Chainlet.Grammar.Expression
import Chainlet.Source.Fault

/-!
# Grammar/Source — parse trees of whole sources

A source is a sequence of elements: comments, and items each ended by a semicolon. `Tree.ofSource`
reads all of them. Where the next element cannot be read it stops with an `Unreadable`, which tells
where that element starts and how the text goes on from there.
-/

namespace Chainlet

namespace Grammar

open Production

/-- An item and its semicolon. -/
def itemElement (n : Nat) (inner : Production) : Production := fun c => do
  let (t, d) ← item n inner c
  let e ← sign semicolon d.skipBlank
  pure (branch .itemElement c e [t], e)

/-- A comment, or an item with its semicolon. -/
def elementWith (n : Nat) (inner : Production) : Production :=
  either (wrap .docElement (leaf .docComment .docComment)) (itemElement n inner)

/-- An element. -/
def element : Production := fun c =>
  elementWith c.rest.length (expressionAt (c.rest.length + 1)) c

/-- The elements at a cursor, and the first position where no element starts. -/
def elements (c : Cursor) : List Tree × Cursor :=
  let n := c.rest.length
  let (ts, d) := repeated (fun c => elementWith n (expressionAt (n + 1)) c.skipBlank) n c
  (ts, d.skipBlank)

end Grammar

/-- The place where no element could be read, and how the source goes on there. -/
structure Unreadable where
  offset : Nat
  found : String
deriving DecidableEq, Repr

namespace Unreadable

/-- The number of characters of the source that a message quotes. -/
def quotedLength : Nat := 16

/-- What is wrong at a cursor where no element starts. -/
def atCursor (c : Cursor) : Unreadable := ⟨c.offset, String.ofList (c.rest.take quotedLength)⟩

def message (u : Unreadable) : String :=
  "expected a doc comment or an item terminated by `;`, found `" ++ u.found ++ "`"

def fault (u : Unreadable) : Fault := ⟨u.message, u.offset⟩

end Unreadable

/-- **The parse tree of a source.** The root has the text of the source without the blanks around
it. -/
def Tree.ofSource (source : String) : Except Unreadable Tree :=
  let start := (Cursor.ofSource source).skipBlank
  let (children, stop) := Grammar.elements start
  if stop.rest.isEmpty then
    .ok (.node .program (String.ofList (dropTrailingBlank start.rest)) (some start.offset) children)
  else .error (.atCursor stop)

end Chainlet
