import Chainlet.Source.Fault
import Chainlet.Tree.Basic

/-!
# Tree/Malformed — nodes that stand where they do not belong

A tree that did not come from the grammar may have any node anywhere. `Malformed` names the node
that was found, the part of a program that was looked for in its place, and where it stands.
-/

namespace Chainlet

/-- What is looked for at a place of a parse tree. -/
inductive Part where
  | program
  | element
  | docComment
  | item
  | statement
  | assignment
  | definition
  | keyword
  | generics
  | parameterList
  | parameter
  | binding
  | operator
  | expression
  | binaryOperation
  | call
  | operand
  | argumentList
  | block
  | path
  | name
  | typedName
  | typeAscription
  | literal
  | quotedString
  | floatLiteral
  | booleanLiteral
  | field
  | optionalPart
deriving DecidableEq, Repr

/-- The words for a part in messages. -/
def Part.label : Part → String
  | .program => "program"
  | .element => "element"
  | .docComment => "doc comment"
  | .item => "item"
  | .statement => "statement"
  | .assignment => "assignment"
  | .definition => "definition"
  | .keyword => "keyword"
  | .generics => "generic parameters"
  | .parameterList => "parameter list"
  | .parameter => "parameter"
  | .binding => "binding"
  | .operator => "operator"
  | .expression => "expression"
  | .binaryOperation => "binary operation"
  | .call => "function call"
  | .operand => "expression end"
  | .argumentList => "argument list"
  | .block => "block"
  | .path => "namespace"
  | .name => "identifier"
  | .typedName => "typed identifier"
  | .typeAscription => "type annotation"
  | .literal => "literal"
  | .quotedString => "quoted string"
  | .floatLiteral => "float literal"
  | .booleanLiteral => "boolean literal"
  | .field => "key-value pair"
  | .optionalPart => "optional part"

/-- A node found where another part of a program was looked for. -/
structure Malformed where
  rule : Rule
  expected : Part
  span : Span
deriving DecidableEq, Repr

namespace Malformed

def message (m : Malformed) : String :=
  "malformed parse tree: expected " ++ m.expected.label ++ ", found " ++ m.rule.label ++ " (" ++
    m.rule.category.label ++ ") at " ++ toString m.span.start ++ ".." ++ toString m.span.stop

/-- The fault of a malformed tree is that of the source text at its node. -/
def fault (m : Malformed) : Fault := ⟨m.message, m.span.start⟩

end Malformed

/-- The refusal of a node that is not the part looked for. -/
def Tree.malformed {α : Type} (t : Tree) (expected : Part) : Except Malformed α :=
  .error ⟨t.rule, expected, t.span⟩

end Chainlet
