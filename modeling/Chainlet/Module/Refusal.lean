/-!
# Module/Refusal — what has no code

A `Refusal` is a cause for which a program has no module. Its kind, the detail that names the culprit
and the message made of both are functions of the cause.
-/

namespace Chainlet

/-- Why a program has no module. -/
inductive Refusal where
  /-- An operator without an instruction. -/
  | unknownOperator (operator : String)
  | tupleLiteral
  /-- A definition that does not stand at the top level. -/
  | nestedDefinition
  /-- An array or object inside an element or field of another one. -/
  | nestedComposite
  /-- An integer that is no number of its base or does not fit in a word. -/
  | invalidInteger (text : String)
  /-- An array with more elements than a word can count. -/
  | arrayTooLong
deriving DecidableEq, Repr

/-- The kinds of refusals. -/
inductive RefusalKind where
  | unsupportedOperator
  | unsupported
  | invalidLiteral
deriving DecidableEq, Repr

namespace RefusalKind

/-- The name of a kind. -/
def label : RefusalKind → String
  | unsupportedOperator => "UnsupportedOperator"
  | unsupported => "Unsupported"
  | invalidLiteral => "InvalidLiteral"

/-- A kind in the words of a message. -/
def words : RefusalKind → String
  | unsupportedOperator => "unsupported operator"
  | unsupported => "unsupported construct"
  | invalidLiteral => "invalid literal"

end RefusalKind

namespace Refusal

def kind : Refusal → RefusalKind
  | unknownOperator _ => .unsupportedOperator
  | tupleLiteral | nestedDefinition | nestedComposite => .unsupported
  | invalidInteger _ | arrayTooLong => .invalidLiteral

/-- What the refusal is about: the operator, the literal or the construct. -/
def detail : Refusal → String
  | unknownOperator operator => operator
  | tupleLiteral => "tuple literal"
  | nestedDefinition => "nested definition"
  | nestedComposite => "nested composite literal"
  | invalidInteger text => text
  | arrayTooLong => "array literal too long"

def message (r : Refusal) : String := r.kind.words ++ ": " ++ r.detail

end Refusal

end Chainlet
