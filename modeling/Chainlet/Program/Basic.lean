import Chainlet.Binary32.Basic
import Chainlet.Source.Span

/-!
# Program/Basic — programs as typed trees

A `Program` is a sequence of elements: comments and items. An `Item` is a statement or an expression;
an `Expression` is a chain of operators, which nests on its left, a call, or an operand. Nodes that
were read from a source carry their span in it, others carry none.
-/

namespace Chainlet

/-! ## Names -/

/-- The name of a type, behind a colon. -/
structure TypeAscription where
  typeName : String
  span : Option Span := none
deriving DecidableEq, Repr

/-- A name with an optional type. -/
structure TypedName where
  name : String
  ascription : Option TypeAscription := none
  span : Option Span := none
deriving DecidableEq, Repr

/-- The names of the types that a definition leaves open. -/
structure Generics where
  names : List String
  span : Option Span := none
deriving DecidableEq, Repr

/-- A name made of segments. -/
structure Path where
  segments : List String
  span : Option Span := none
deriving DecidableEq, Repr

/-- The segments of a path joined by points: one name for the whole. -/
def Path.flatten (p : Path) : String := ".".intercalate p.segments

/-! ## Literals of numbers -/

/-- The base of an integer literal. -/
inductive Base where
  | decimal
  | binary
  | hexadecimal
  | octal
deriving DecidableEq, Repr

namespace Base

/-- The number of digits of a base. -/
def radix : Base → Nat
  | decimal => 10
  | binary => 2
  | hexadecimal => 16
  | octal => 8

/-- The mark in front of the digits of a base. -/
def mark : Base → String
  | decimal => ""
  | binary => "0b"
  | hexadecimal => "0x"
  | octal => "0c"

/-- The name under which a base is written out. -/
def label : Base → String
  | decimal => "Decimal"
  | binary => "Binary"
  | hexadecimal => "Hexadecimal"
  | octal => "Octal"

/-- The text of an integer literal without the mark of its base, whole if the mark is missing. -/
def digits (b : Base) (text : String) : String :=
  let mark := b.mark.toList
  if mark.isPrefixOf text.toList then String.ofList (text.toList.drop mark.length) else text

end Base

/-- What a call names: a keyword of the language or a path of the program. -/
inductive Callee where
  | builtin (keyword : String)
  | user (path : Path)
deriving DecidableEq, Repr

/-! ## Expressions, items and definitions -/

mutual

/-- A value. The left operand of an operator is everything before it, the right one a single
operand. -/
inductive Expression where
  | binary (left : Expression) (operator : String) (right : Operand) (span : Option Span)
  | call (call : Call)
  | operand (value : Operand)

/-- A call of a keyword or a path, with its arguments. -/
structure Call where
  callee : Callee
  arguments : List Expression
  span : Option Span

/-- A value that stands for itself in a chain. -/
inductive Operand where
  | literal (value : Literal)
  | path (path : Path)
  | block (block : Block)
  | group (inner : Expression)

/-- A sequence of items, of which the last one gives the value. -/
structure Block where
  items : List Item
  span : Option Span

/-- A value written out. An integer keeps its text; its base is known from the mark. -/
inductive Literal where
  | array (elements : List Expression) (span : Option Span)
  | object (fields : List Field) (span : Option Span)
  | tuple (elements : List Expression) (span : Option Span)
  | string (content : String) (span : Option Span)
  | int (text : String) (base : Base) (span : Option Span)
  | float (value : Binary32) (span : Option Span)
  | boolean (value : Bool) (span : Option Span)

/-- A field of an object. -/
structure Field where
  key : TypedName
  value : Expression
  span : Option Span

/-- A statement, or an expression for its value. -/
inductive Item where
  | statement (statement : Statement)
  | expression (value : Expression)

/-- An assignment to a global, or a definition. -/
inductive Statement where
  | assignment (target : Path) (value : Expression) (span : Option Span)
  | definition (definition : Definition)

/-- A function with its parameters and, unless it is a stub, its body. -/
structure Definition where
  keyword : String
  name : TypedName
  generics : Option Generics
  parameters : List Parameter
  binding : Option Binding
  span : Option Span

/-- A named parameter, or a literal that stands for a pattern and has no name. -/
inductive Parameter where
  | named (name : TypedName)
  | pattern (value : Literal)

/-- The body of a definition. -/
structure Binding where
  body : Operand
  span : Option Span

end

/-- The text behind the two number signs of a comment. -/
structure DocComment where
  content : String
  span : Option Span := none
deriving DecidableEq, Repr

/-- A part of a program at its top level. -/
inductive Element where
  | item (item : Item)
  | docComment (comment : DocComment)

/-- A whole program. -/
structure Program where
  elements : List Element
  span : Option Span := none

/-! ## Questions about single nodes -/

/-- The kind of a literal, as named in messages. -/
def Literal.kindName : Literal → String
  | .array .. => "array literal"
  | .object .. => "object literal"
  | .tuple .. => "tuple literal"
  | .string .. => "string literal"
  | .int .. => "int literal"
  | .float .. => "float literal"
  | .boolean .. => "boolean literal"

namespace Parameter

def isPattern : Parameter → Bool
  | named _ => false
  | pattern _ => true

/-- The name of a parameter, if it has one. -/
def name? : Parameter → Option String
  | named n => some n.name
  | pattern _ => none

theorem isPattern_iff (p : Parameter) : p.isPattern = true ↔ p.name? = none := by
  cases p <;> simp [isPattern, name?]

end Parameter

/-- Whether a call names a keyword of the language. -/
def Call.isBuiltin (c : Call) : Bool :=
  match c.callee with
  | .builtin _ => true
  | .user _ => false

end Chainlet
