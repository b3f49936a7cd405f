import Chainlet.Binary32.Decimal
import Chainlet.Program.Basic
import Chainlet.Tree.Malformed

/-!
# Program/OfTree — programs from parse trees

Each part of a program is read off a node by the rule of the node and its children; a node with
another rule or other children is refused and never guessed at. An operator chain is walked down its
left spine with the operands met on the way set aside (`Expression.ofSpine`) and put together from
the innermost operand outwards, so that a chain of any length takes no more depth than its operands.
-/

namespace Chainlet

/-- A part of a program, or the node that is not it. -/
abbrev Built (α : Type) := Except Malformed α

/-! ## Names -/

/-- The text of a node that must have a rule. -/
def Tree.textOf (rule : Rule) (expected : Part) (t : Tree) : Built String :=
  if t.rule = rule then .ok t.text else t.malformed expected

/-- The text of a name. -/
def Tree.nameText : Tree → Built String := Tree.textOf .name .name

/-- The text of a keyword. -/
def Tree.keywordText : Tree → Built String := Tree.textOf .keyword .keyword

/-- A part that may be missing. -/
def Tree.optional? {α : Type} (build : Tree → Built α) : Tree → Built (Option α)
  | .node .optional _ _ [] => .ok none
  | .node .optional _ _ [t] => (build t).map some
  | t => t.malformed .optionalPart

/-- The type annotation of a node. -/
def TypeAscription.ofTree : Tree → Built TypeAscription
  | node@(.node .typeAscription _ _ [t]) => do
    let type ← t.nameText
    pure ⟨type, some node.span⟩
  | t => t.malformed .typeAscription

/-- The name of a node, with its type if the node has one. -/
def TypedName.ofTree : Tree → Built TypedName
  | node@(.node .typedName _ _ [label, ascription]) => do
    let name ← label.nameText
    let type ← ascription.optional? TypeAscription.ofTree
    pure ⟨name, type, some node.span⟩
  | t => t.malformed .typedName

/-- The type parameters of a node. -/
def Generics.ofTree : Tree → Built Generics
  | node@(.node .generics _ _ ts) => do
    let names ← ts.mapM Tree.nameText
    pure ⟨names, some node.span⟩
  | t => t.malformed .generics

/-- A path has at least one segment. -/
def Path.ofTree : Tree → Built Path
  | node@(.node .path _ _ (t :: ts)) => do
    let segments ← (t :: ts).mapM Tree.nameText
    pure ⟨segments, some node.span⟩
  | t => t.malformed .path

/-- The text behind the number signs, or all of a text that has none. -/
def DocComment.ofTree : Tree → Built DocComment
  | node@(.node .docComment text _ _) =>
    let content := match text.toList with
      | '#' :: '#' :: rest => String.ofList rest
      | _ => text
    .ok ⟨content, some node.span⟩
  | t => t.malformed .docComment

/-! ## Words that stand for values -/

/-- The text between two quotes. -/
def unquoted? (text : String) : Option String :=
  match text.toList with
  | '"' :: rest =>
    match rest.reverse with
    | '"' :: inside => some (String.ofList inside.reverse)
    | _ => none
  | _ => none

/-- The number that a float literal writes; underscores mean nothing. -/
def floatValue? (text : String) : Option Binary32 :=
  Binary32.ofText? (text.toList.filter (· != '_'))

/-- The literals that are single words. -/
def Literal.ofWord (t : Tree) : Built Literal :=
  match t.rule with
  | .stringLiteral =>
    match unquoted? t.text with
    | some content => .ok (.string content t.span)
    | none => t.malformed .quotedString
  | .decimalLiteral => .ok (.int t.text .decimal t.span)
  | .binaryLiteral => .ok (.int t.text .binary t.span)
  | .hexLiteral => .ok (.int t.text .hexadecimal t.span)
  | .octalLiteral => .ok (.int t.text .octal t.span)
  | .floatLiteral =>
    match floatValue? t.text with
    | some value => .ok (.float value t.span)
    | none => t.malformed .floatLiteral
  | .booleanLiteral =>
    if t.text = "@true" then .ok (.boolean true t.span)
    else if t.text = "@false" then .ok (.boolean false t.span)
    else t.malformed .booleanLiteral
  | _ => t.malformed .literal

/-! ## Chains -/

/-- An operator met on the way down a spine, with the operand on its right. -/
structure Link where
  operator : Tree
  right : Built Operand
  span : Span

/-- A chain with one more operator: first the operator is looked at, then its operand. -/
def Link.attach (left : Expression) (l : Link) : Built Expression := do
  let operator ← l.operator.textOf .operator .operator
  let right ← l.right
  pure (.binary left operator right l.span)

/-! ## Expressions, items and definitions -/

mutual

/-- The expression of a node within a chain whose further links, from the inside outwards, have been
met already. -/
def Expression.ofSpine : Tree → List Link → Built Expression
  | node@(.node .binaryExpression _ _ [left, operator, right]), links =>
    Expression.ofSpine left
      (⟨operator, Operand.ofTree right,
        node.span⟩ :: links)
  | node@(.node .callExpression _ _ [t]), links => do
    let c ← Call.ofTree t node.span
    links.foldlM Link.attach (.call c)
  | .node .operandExpression _ _ [t], links => do
    let value ← Operand.ofTree t
    links.foldlM Link.attach (.operand value)
  | t, _ =>
    match t.rule with
    | .binaryExpression => t.malformed .binaryOperation
    | .callExpression => t.malformed .call
    | .operandExpression => t.malformed .operand
    | _ => t.malformed .expression

/-- A call, which takes the span of the expression around it. The arguments come before the callee,
should both be refused. -/
def Call.ofTree : Tree → Span → Built Call
  | .node .builtinCall _ _ [callee, arguments], span => do
    let values ← argumentsOfTree arguments
    let keyword ← callee.keywordText
    pure ⟨.builtin keyword, values, some span⟩
  | .node .userCall _ _ [callee, arguments], span => do
    let values ← argumentsOfTree arguments
    let path ← Path.ofTree callee
    pure ⟨.user path, values, some span⟩
  | t, _ => t.malformed .call

/-- The arguments in the list of a call. -/
def argumentsOfTree : Tree → Built (List Expression)
  | .node .arguments _ _ ts => expressionsOfTrees ts
  | t => t.malformed .argumentList

/-- The operand of a node, by its kind. -/
def Operand.ofTree : Tree → Built Operand
  | .node .literalOperand _ _ [t] => return .literal (← Literal.ofTree t)
  | .node .pathOperand _ _ [t] => return .path (← Path.ofTree t)
  | .node .blockOperand _ _ [t] => return .block (← Block.ofTree t)
  | .node .groupOperand _ _ [t] => return .group (← Expression.ofSpine t [])
  | t => t.malformed .operand

/-- The block of a node. -/
def Block.ofTree : Tree → Built Block
  | node@(.node .block _ _ ts) => do
    let items ← itemsOfTrees ts
    pure ⟨items, some node.span⟩
  | t => t.malformed .block

/-- The literal of a node, which is a list of parts or a single word. -/
def Literal.ofTree : Tree → Built Literal
  | node@(.node .arrayLiteral _ _ ts) => do
    let elements ← expressionsOfTrees ts
    pure (.array elements node.span)
  | node@(.node .tupleLiteral _ _ ts) => do
    let elements ← expressionsOfTrees ts
    pure (.tuple elements node.span)
  | node@(.node .objectLiteral _ _ ts) => do
    let fields ← fieldsOfTrees ts
    pure (.object fields node.span)
  | t => Literal.ofWord t

/-- The field of a node. -/
def Field.ofTree : Tree → Built Field
  | node@(.node .field _ _ [key, value]) => do
    let name ← TypedName.ofTree key
    let value' ← Expression.ofSpine value []
    pure ⟨name, value', some node.span⟩
  | t => t.malformed .field

/-- The item of a node. -/
def Item.ofTree : Tree → Built Item
  | .node .statementItem _ _ [t] => return .statement (← Statement.ofTree t)
  | .node .expressionItem _ _ [t] => return .expression (← Expression.ofSpine t [])
  | t => t.malformed .item

/-- The statement of a node. -/
def Statement.ofTree : Tree → Built Statement
  | .node .assignmentStatement _ _ [t] => assignmentOfTree t
  | .node .definitionStatement _ _ [t] => return .definition (← Definition.ofTree t)
  | t => t.malformed .statement

/-- The assignment of a node. -/
def assignmentOfTree : Tree → Built Statement
  | node@(.node .assignment _ _ [target, value]) => do
    let path ← Path.ofTree target
    let value' ← Expression.ofSpine value []
    pure (.assignment path value' node.span)
  | t => t.malformed .assignment

/-- The definition of a node; the first of its five parts that is malformed is refused. -/
def Definition.ofTree : Tree → Built Definition
  | node@(.node .definition _ _ [word, label, types, inputs, body]) => do
    let keyword ← word.keywordText
    let name ← TypedName.ofTree label
    let generics ← types.optional? Generics.ofTree
    let parameters ← parametersOfTree inputs
    let binding ← bindingOfTree? body
    pure ⟨keyword, name, generics, parameters, binding,
      some node.span⟩
  | t => t.malformed .definition

/-- The parameters in the list of a definition. -/
def parametersOfTree : Tree → Built (List Parameter)
  | .node .parameters _ _ ts => parametersOfTrees ts
  | t => t.malformed .parameterList

/-- The parameter of a node. -/
def Parameter.ofTree : Tree → Built Parameter
  | .node .namedParameter _ _ [t] => return .named (← TypedName.ofTree t)
  | .node .literalParameter _ _ [t] => return .pattern (← Literal.ofTree t)
  | t => t.malformed .parameter

/-- The body of a definition, or nothing. -/
def bindingOfTree? : Tree → Built (Option Binding)
  | .node .optional _ _ [] => .ok none
  | .node .optional _ _ [t] => return some (← Binding.ofTree t)
  | t => t.malformed .optionalPart

/-- A body that is an operand stands for itself; any other expression is kept as a group. -/
def Binding.ofTree : Tree → Built Binding
  | node@(.node .binding _ _ [t]) => do
    let body ← match ← Expression.ofSpine t [] with
      | .operand value => pure value
      | e => pure (.group e)
    pure ⟨body, some node.span⟩
  | t => t.malformed .binding

def expressionsOfTrees : List Tree → Built (List Expression)
  | [] => pure []
  | t :: ts => return (← Expression.ofSpine t []) :: (← expressionsOfTrees ts)

def fieldsOfTrees : List Tree → Built (List Field)
  | [] => pure []
  | t :: ts => return (← Field.ofTree t) :: (← fieldsOfTrees ts)

def itemsOfTrees : List Tree → Built (List Item)
  | [] => pure []
  | t :: ts => return (← Item.ofTree t) :: (← itemsOfTrees ts)

def parametersOfTrees : List Tree → Built (List Parameter)
  | [] => pure []
  | t :: ts => return (← Parameter.ofTree t) :: (← parametersOfTrees ts)

end

/-- The expression of a node. -/
def Expression.ofTree (t : Tree) : Built Expression := Expression.ofSpine t []

/-- The element of a program that a node stands for. -/
def Element.ofTree : Tree → Built Element
  | .node .itemElement _ _ [t] => return .item (← Item.ofTree t)
  | .node .docElement _ _ [t] => return .docComment (← DocComment.ofTree t)
  | t => t.malformed .element

/-- **The program of a parse tree.** -/
def Program.ofTree : Tree → Built Program
  | node@(.node .program _ _ ts) => do
    let elements ← ts.mapM Element.ofTree
    pure ⟨elements, some node.span⟩
  | t => t.malformed .program

end Chainlet
