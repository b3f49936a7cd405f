import Chainlet.Binary32.Numeral
import Chainlet.Program.Basic
import Chainlet.Text.Json

/-!
# Program/Json — programs as JSON

A node is an object with all its fields in the order of their declaration, `null` for a part that is
missing; an alternative is an object with the name of the alternative as its only member. A float
is a number in the style `jsonNumeral`.
-/

namespace Chainlet

/-- Numbers in JSON: written out in full from a millionth up to thirteen digits before the point, with
a power of ten beyond; a whole number keeps a point, a tie goes to the even digit, and what is not
finite is `null`. -/
def jsonNumeral : Numeral where
  fullRange := some (-6, 12)
  keepsPoint := true
  tie := .toEven
  infinity := "null"
  negativeInfinity := "null"
  nan := "null"

/-- A span is printed as its two ends. -/
def Span.toJson (s : Span) : Json := .object [("start", .nat s.start), ("end", .nat s.stop)]

/-- The last member of most nodes. -/
def spanMember (s : Option Span) : String × Json := ("span", .ofOption Span.toJson s)

/-- A type annotation is printed as its type and its span. -/
def TypeAscription.toJson (a : TypeAscription) : Json :=
  .object [("typename", .string a.typeName), spanMember a.span]

/-- A name is printed with its type, or null, and its span. -/
def TypedName.toJson (n : TypedName) : Json :=
  .object [("name", .string n.name),
    ("type_annotation", .ofOption TypeAscription.toJson n.ascription), spanMember n.span]

/-- Type parameters are printed as a list of their names. -/
def Generics.toJson (g : Generics) : Json :=
  .object [("params", .array (g.names.map .string)), spanMember g.span]

/-- A path is printed as a list of its segments. -/
def Path.toJson (p : Path) : Json :=
  .object [("path", .array (p.segments.map .string)), spanMember p.span]

/-- A function is printed under a tag that says whether it is a keyword or a path. -/
def Callee.toJson : Callee → Json
  | builtin keyword => .tagged "Builtin" (.string keyword)
  | user path => .tagged "User" path.toJson

mutual

/-- An expression is printed under the tag of its kind. -/
def Expression.toJson : Expression → Json
  | .binary left operator right span =>
    .tagged "BinOp" (.object [("left", left.toJson), ("operator", .string operator),
      ("right", right.toJson), spanMember span])
  | .call c => .tagged "FunctionCall" c.toJson
  | .operand value => .tagged "ExpressionEnd" value.toJson

/-- A call is printed as its function and a list of its arguments. -/
def Call.toJson : Call → Json
  | ⟨callee, arguments, span⟩ =>
    .object [("name", callee.toJson), ("args", .array (expressionsJson arguments)),
      spanMember span]

/-- An operand is printed under the tag of its kind. -/
def Operand.toJson : Operand → Json
  | .literal value => .tagged "Literal" value.toJson
  | .path p => .tagged "Namespace" p.toJson
  | .block b => .tagged "Block" b.toJson
  | .group inner => .tagged "Paren" inner.toJson

def Block.toJson : Block → Json
  | ⟨items, span⟩ => .object [("items", .array (itemsJson items)), spanMember span]

/-- A literal is printed under the tag of its kind; an integer by its digits and its base. -/
def Literal.toJson : Literal → Json
  | .array elements span =>
    .tagged "Array" (.object [("elements", .array (expressionsJson elements)), spanMember span])
  | .object fields span =>
    .tagged "Object" (.object [("properties", .array (fieldsJson fields)), spanMember span])
  | .tuple elements span =>
    .tagged "Tuple" (.object [("elements", .array (expressionsJson elements)), spanMember span])
  | .string content span =>
    .tagged "String" (.object [("value", .string content), spanMember span])
  | .int text base span =>
    .tagged "Int" (.object [("value", .string text), ("base", .string base.label), spanMember span])
  | .float value span =>
    .tagged "Float" (.object [("value", .number (value.text jsonNumeral)), spanMember span])
  | .boolean value span =>
    .tagged "Boolean" (.object [("value", .bool value), spanMember span])

def Field.toJson : Field → Json
  | ⟨key, value, span⟩ =>
    .object [("key", key.toJson), ("value", value.toJson), spanMember span]

def Item.toJson : Item → Json
  | .statement s => .tagged "Statement" s.toJson
  | .expression e => .tagged "Expression" e.toJson

def Statement.toJson : Statement → Json
  | .assignment target value span =>
    .tagged "Assignment" (.object [("target", target.toJson), ("value", value.toJson),
      spanMember span])
  | .definition d => .tagged "Definition" d.toJson

/-- A definition is printed with all its parts, the missing ones as null. -/
def Definition.toJson : Definition → Json
  | ⟨keyword, name, generics, parameters, binding, span⟩ =>
    .object [("keyword", .string keyword), ("name", name.toJson),
      ("generics", .ofOption Generics.toJson generics),
      ("params", .array (parametersJson parameters)), ("binding", bindingJson binding),
      spanMember span]

def Parameter.toJson : Parameter → Json
  | .named n => .tagged "Typed" n.toJson
  | .pattern value => .tagged "Literal" value.toJson

def Binding.toJson : Binding → Json
  | ⟨body, span⟩ => .object [("expression", body.toJson), spanMember span]

def expressionsJson : List Expression → List Json
  | [] => []
  | e :: es => e.toJson :: expressionsJson es

def fieldsJson : List Field → List Json
  | [] => []
  | f :: fs => f.toJson :: fieldsJson fs

def itemsJson : List Item → List Json
  | [] => []
  | i :: is => i.toJson :: itemsJson is

def parametersJson : List Parameter → List Json
  | [] => []
  | p :: ps => p.toJson :: parametersJson ps

/-- A body that is missing is printed as null. -/
def bindingJson : Option Binding → Json
  | none => .null
  | some b => b.toJson

end

/-- A comment is printed as its content and its span. -/
def DocComment.toJson (c : DocComment) : Json :=
  .object [("content", .string c.content), spanMember c.span]

/-- An element of a program is printed under the tag of its kind. -/
def Element.toJson : Element → Json
  | item i => .tagged "Item" i.toJson
  | docComment c => .tagged "DocComment" c.toJson

/-- **A program as JSON.** -/
def Program.toJson (p : Program) : Json :=
  .object [("elements", .array (p.elements.map Element.toJson)), spanMember p.span]

end Chainlet
