import Chainlet.Source.Span
import Chainlet.Tree.Rule

/-!
# Tree/Basic — parse trees

A node keeps its production, the text it was read from, the byte at which that text starts in the
source, and its children in source order. A node whose text is no part of the source has no start
and spans nothing. `Tree.same` compares trees without regard to where they stand, and `Tree.rows`
lists the nodes from the root downwards.
-/

namespace Chainlet

/-- A parse tree. -/
inductive Tree where
  | node (rule : Rule) (text : String) (start : Option Nat) (children : List Tree)

namespace Tree

def rule : Tree → Rule
  | node rule _ _ _ => rule

def text : Tree → String
  | node _ text _ _ => text

def start : Tree → Option Nat
  | node _ _ start _ => start

def children : Tree → List Tree
  | node _ _ _ children => children

/-- The bytes of the source that a node was read from. -/
def span (t : Tree) : Span :=
  match t.start with
  | none => .nowhere
  | some start => ⟨start, start + t.text.utf8ByteSize⟩

/-! ## Equality -/

mutual

/-- Whether two trees have the same shape and the same texts, wherever they stand. -/
def same : Tree → Tree → Bool
  | node r t _ cs, node r' t' _ cs' => r == r' && (t == t' && sameAll cs cs')

/-- Whether two lists of trees are the same one by one. -/
def sameAll : List Tree → List Tree → Bool
  | [], [] => true
  | c :: cs, c' :: cs' => same c c' && sameAll cs cs'
  | _, _ => false

end

/-! ## The nodes in order -/

mutual

/-- The nodes of a tree with their depths, each before its children, in front of a list of more. -/
def rows (depth : Nat) : Tree → List (Nat × Rule × Span) → List (Nat × Rule × Span)
  | node r t s cs, more => (depth, r, (node r t s cs).span) :: rowsAll (depth + 1) cs more

/-- The nodes of a list of trees at a depth, in order, in front of a list of more. -/
def rowsAll (depth : Nat) : List Tree → List (Nat × Rule × Span) → List (Nat × Rule × Span)
  | [], more => more
  | c :: cs, more => rows depth c (rowsAll depth cs more)

end

end Tree

end Chainlet
