import Chainlet.Program.Hint

/-!
# Proofs/Program/Erasure — what is left of a program without the words that mean nothing

`Program.erase` leaves out of a program whatever is written for its readers only: spans and comments,
the keyword, the type variables and the types of a definition, the contents of strings and of patterns,
the names of fields.  Groups stand for what is in them wherever that can stand for itself: a group that
is all of an expression is the expression inside (`Operand.asExpression`), and a group around an operand
is the operand (`Expression.asOperand`).
-/

namespace Chainlet

/-! ## Groups -/

/-- An operand as an expression: a group is what is in it. -/
def Operand.asExpression : Operand → Expression
  | .group inner => inner
  | value => .operand value

/-- An expression as an operand: a group, unless it is an operand already. -/
def Expression.asOperand : Expression → Operand
  | .operand value => value
  | e => .group e

/-! ## Names -/

/-- A path without its place. -/
def Path.erase (p : Path) : Path := ⟨p.segments, none⟩

def Callee.erase : Callee → Callee
  | .builtin keyword => .builtin keyword
  | .user path => .user path.erase

/-- The name of a definition or of a parameter, without its type. -/
def TypedName.eraseType (n : TypedName) : TypedName := ⟨n.name, none, none⟩

/-- The key of a field: nothing but whether its type is `f32`. -/
def TypedName.eraseKey (n : TypedName) : TypedName :=
  ⟨"", if n.ascription.any (·.typeName == "f32") then some ⟨"f32", none⟩ else none, none⟩

/-! ## Programs -/

/-- A parameter keeps its name, and a pattern nothing but that it is one. -/
def Parameter.erase : Parameter → Parameter
  | .named n => .named n.eraseType
  | .pattern _ => .pattern (.boolean false none)

mutual

def Expression.erase : Expression → Expression
  | .binary left operator right _ => .binary left.erase operator right.erase none
  | .call c => .call c.erase
  | .operand value => value.erase.asExpression

def Call.erase : Call → Call
  | ⟨callee, arguments, _⟩ => ⟨callee.erase, eraseExpressions arguments, none⟩

def Operand.erase : Operand → Operand
  | .literal value => .literal value.erase
  | .path p => .path p.erase
  | .block b => .block b.erase
  | .group inner => inner.erase.asOperand

def Block.erase : Block → Block
  | ⟨items, _⟩ => ⟨eraseItems items, none⟩

def Literal.erase : Literal → Literal
  | .array elements _ => .array (eraseExpressions elements) none
  | .object fields _ => .object (eraseFields fields) none
  | .tuple elements _ => .tuple (eraseExpressions elements) none
  | .string _ _ => .string "" none
  | .int text base _ => .int text base none
  | .float value _ => .float value none
  | .boolean value _ => .boolean value none

def Field.erase : Field → Field
  | ⟨key, value, _⟩ => ⟨key.eraseKey, value.erase, none⟩

def Item.erase : Item → Item
  | .statement s => .statement s.erase
  | .expression e => .expression e.erase

def Statement.erase : Statement → Statement
  | .assignment target value _ => .assignment target.erase value.erase none
  | .definition d => .definition d.erase

/-- A definition keeps its name, its parameters and its body, wherever it stands. -/
def Definition.erase : Definition → Definition
  | ⟨_, name, _, parameters, binding, _⟩ =>
    ⟨"", name.eraseType, none, parameters.map Parameter.erase, eraseBinding binding, none⟩

def eraseBinding : Option Binding → Option Binding
  | none => none
  | some ⟨body, _⟩ => some ⟨body.erase, none⟩

def eraseExpressions : List Expression → List Expression
  | [] => []
  | e :: es => e.erase :: eraseExpressions es

def eraseFields : List Field → List Field
  | [] => []
  | f :: fs => f.erase :: eraseFields fs

def eraseItems : List Item → List Item
  | [] => []
  | i :: is => i.erase :: eraseItems is

end

/-- An element, unless it is a comment. -/
def Element.erase? : Element → Option Element
  | .item i => some (.item i.erase)
  | .docComment _ => none

/-- **The program without the words that mean nothing.** -/
def Program.erase (p : Program) : Program := ⟨p.elements.filterMap Element.erase?, none⟩

end Chainlet
