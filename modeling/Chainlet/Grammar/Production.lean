import Chainlet.Grammar.Lexeme
import Chainlet.Source.Cursor
import Chainlet.Tree.Basic

/-!
# Grammar/Production — readers of parse trees, and how they are put together

A `Production` reads one node at a cursor, or fails and reads nothing. Productions are made of words
(`leaf`, `sign`), of one another (`wrap`, `either`, `firstOf`) and of repetitions: `repeated` takes
what a step reads until it fails, and lists between commas come bare (`commaList`) or between
brackets (`bracketed`). A repetition has a bound on its steps; any bound as large as the rest of the
source is out of reach, since each step reads at least one character.
-/

namespace Chainlet

/-- A reader of one node of a parse tree. -/
abbrev Production := Cursor → Option (Tree × Cursor)

namespace Production

/-- The node of a production that read everything from one cursor to another. -/
def branch (rule : Rule) (start stop : Cursor) (children : List Tree) : Tree :=
  .node rule (start.textTo stop) (some start.offset) children

/-- The node that stands for nothing at a cursor. -/
def absent (rule : Rule) (c : Cursor) : Tree := .node rule "" (some c.offset) []

/-! ## Words -/

/-- The node of one word. -/
def leaf (rule : Rule) (l : Lexeme) : Production := fun c =>
  (l c.rest).map fun (word, rest) =>
    (.node rule (String.ofList word) (some c.offset) [], c.after word rest)

/-- A word that leaves no node. -/
def sign (l : Lexeme) (c : Cursor) : Option Cursor :=
  (l c.rest).map fun (word, rest) => c.after word rest

def comma : Lexeme := .exactly [',']

def semicolon : Lexeme := .exactly [';']

/-! ## One production from others -/

/-- A node with a single child that covers the same text. -/
def wrap (rule : Rule) (p : Production) : Production := fun c => do
  let (t, d) ← p c
  pure (branch rule c d [t], d)

/-- One production, or else another. -/
def either (p q : Production) : Production := fun c => p c <|> q c

/-- The first of several productions that succeeds. -/
def firstOf (ps : List Production) : Production := fun c => ps.findSome? fun p => p c

/-- A part that may be missing. Its node has the text of the part, or stands for nothing where the
part would have started. -/
def optionalPart (p : Production) (c : Cursor) : Tree × Cursor :=
  match p c.skipBlank with
  | some (t, d) => (.node .optional t.text t.start [t], d)
  | none => (absent .optional c, c)

/-! ## Repetition -/

/-- What a step reads again and again until it fails, in at most `n` steps, and where it stops. -/
def repeated {α : Type} (step : Cursor → Option (α × Cursor)) : (n : Nat) → Cursor → List α × Cursor
  | 0, c => ([], c)
  | n + 1, c =>
    match step c with
    | none => ([], c)
    | some (a, d) =>
      let (as, e) := repeated step n d
      (a :: as, e)

/-- Nodes with commas between them; a comma behind the last one is left. -/
def separated (n : Nat) (p : Production) (c : Cursor) : List Tree × Cursor :=
  match p c.skipBlank with
  | none => ([], c)
  | some (t, d) =>
    let (ts, e) := repeated (fun c => do p (← sign comma c.skipBlank).skipBlank) n d
    (t :: ts, e)

/-- A list without brackets. Its node reaches from the first element to the last one, or stands for
nothing where the list would have started. -/
def commaList (n : Nat) (rule : Rule) (p : Production) (c : Cursor) : Tree × Cursor :=
  match separated n p c with
  | ([], _) => (absent rule c, c)
  | (ts, d) => (branch rule c.skipBlank d ts, d)

/-- A list between brackets, where a comma may follow the last element. -/
def bracketed (n : Nat) (rule : Rule) (opening closing : List Char) (p : Production) :
    Production := fun c => do
  let d ← sign (.exactly opening) c
  let (ts, e) := separated n p d
  let f := if ts.isEmpty then e else (sign comma e.skipBlank).getD e
  let g ← sign (.exactly closing) f.skipBlank
  pure (branch rule c g ts, g)

end Production

end Chainlet
