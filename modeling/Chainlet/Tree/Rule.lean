/-!
# Tree/Rule — the productions of the grammar

Every node of a parse tree names the production that made it. `Rule.category` says which part of a
program a production yields, and `Rule.alternative?` which choice it is among those of its category;
the productions that stand only at a fixed place inside another one are components.
-/

namespace Chainlet

/-- A production, with the children its nodes carry. -/
inductive Rule where
  /-- Any number of elements. -/
  | program
  /-- One item, ended by a semicolon. -/
  | itemElement
  /-- One `docComment`. -/
  | docElement
  /-- A leaf, with its two number signs. -/
  | docComment
  /-- One statement. -/
  | statementItem
  /-- One expression. -/
  | expressionItem
  /-- One `assignment`. -/
  | assignmentStatement
  /-- One `definition`. -/
  | definitionStatement
  /-- A `path` and an expression. -/
  | assignment
  /-- A `keyword`, a `typedName`, an optional `generics`, a `parameters`, an optional `binding`. -/
  | definition
  /-- A leaf, with its at sign. -/
  | keyword
  /-- Names. -/
  | generics
  /-- Parameters. -/
  | parameters
  /-- One `typedName`. -/
  | namedParameter
  /-- One literal. -/
  | literalParameter
  /-- One expression. -/
  | binding
  /-- A part that may be missing: one child or none. -/
  | optional
  /-- An expression, an `operator` and an operand. -/
  | binaryExpression
  /-- One `builtinCall` or `userCall`. -/
  | callExpression
  /-- One operand. -/
  | operandExpression
  /-- A leaf. -/
  | operator
  /-- A `keyword` and an `arguments`. -/
  | builtinCall
  /-- A `path` and an `arguments`. -/
  | userCall
  /-- Expressions. -/
  | arguments
  /-- One literal. -/
  | literalOperand
  /-- One `path`. -/
  | pathOperand
  /-- One `block`. -/
  | blockOperand
  /-- One expression. -/
  | groupOperand
  /-- Items. -/
  | block
  /-- Names, at least one. -/
  | path
  /-- A leaf. -/
  | name
  /-- A `name` and an optional `typeAscription`. -/
  | typedName
  /-- One `name`. -/
  | typeAscription
  /-- Expressions. -/
  | arrayLiteral
  /-- Fields. -/
  | objectLiteral
  /-- Expressions. -/
  | tupleLiteral
  /-- A `typedName` and an expression. -/
  | field
  /-- A leaf, with its quotes. -/
  | stringLiteral
  /-- A leaf. -/
  | decimalLiteral
  /-- A leaf, with `0b` in front. -/
  | binaryLiteral
  /-- A leaf, with `0x` in front. -/
  | hexLiteral
  /-- A leaf, with `0c` in front. -/
  | octalLiteral
  /-- A leaf. -/
  | floatLiteral
  /-- A leaf, `@true` or `@false`. -/
  | booleanLiteral
deriving DecidableEq, Repr

/-- The part of a program that a production yields. -/
inductive Category where
  | program
  | element
  | item
  | statement
  | expression
  | operand
  | literal
  | parameter
  | call
  /-- A production that stands only at a fixed place inside another one. -/
  | component
deriving DecidableEq, Repr

/-- The name under which a category is reported. -/
def Category.label : Category → String
  | .program => "Program"
  | .element => "Element"
  | .item => "Item"
  | .statement => "Statement"
  | .expression => "Expression"
  | .operand => "ExpressionEnd"
  | .literal => "Literal"
  | .parameter => "Parameter"
  | .call => "Call"
  | .component => "Component"

namespace Rule

/-- The category of a production and, where the category has several, the choice it stands for. -/
def classify : Rule → Category × Option String
  | program => (.program, none)
  | itemElement => (.element, "Item")
  | docElement => (.element, "Doc")
  | statementItem => (.item, "Statement")
  | expressionItem => (.item, "Expression")
  | assignmentStatement => (.statement, "Assignment")
  | definitionStatement => (.statement, "Definition")
  | binaryExpression => (.expression, "BinOp")
  | callExpression => (.expression, "Call")
  | operandExpression => (.expression, "End")
  | literalOperand => (.operand, "Literal")
  | pathOperand => (.operand, "Namespace")
  | blockOperand => (.operand, "Block")
  | groupOperand => (.operand, "Paren")
  | arrayLiteral => (.literal, "Array")
  | objectLiteral => (.literal, "Object")
  | tupleLiteral => (.literal, "Tuple")
  | stringLiteral => (.literal, "String")
  | decimalLiteral => (.literal, "Decimal")
  | binaryLiteral => (.literal, "Binary")
  | hexLiteral => (.literal, "Hex")
  | octalLiteral => (.literal, "Octal")
  | floatLiteral => (.literal, "Float")
  | booleanLiteral => (.literal, "Boolean")
  | namedParameter => (.parameter, "Typed")
  | literalParameter => (.parameter, "Literal")
  | builtinCall => (.call, "Builtin")
  | userCall => (.call, "User")
  | docComment | assignment | definition | keyword | generics | parameters | binding | optional
  | operator | arguments | block | path | name | typedName | typeAscription | field =>
    (.component, none)

/-- The category of a production. -/
def category (r : Rule) : Category := r.classify.1

/-- The choice that a production stands for in its category. -/
def alternative? (r : Rule) : Option String := r.classify.2

/-- A category with the choice in it, as reported. -/
def kindLabel (r : Rule) : String :=
  match r.alternative? with
  | none => r.category.label
  | some choice => r.category.label ++ "(" ++ choice ++ ")"

/-- The name under which a production is reported. -/
def label : Rule → String
  | program => "Program"
  | itemElement => "ItemElement"
  | docElement => "DocElement"
  | docComment => "DocComment"
  | statementItem => "StatementItem"
  | expressionItem => "ExpressionItem"
  | assignmentStatement => "AssignmentStatement"
  | definitionStatement => "DefinitionStatement"
  | assignment => "Assignment"
  | definition => "Definition"
  | keyword => "Keyword"
  | generics => "GenericParams"
  | parameters => "Params"
  | namedParameter => "TypedParam"
  | literalParameter => "LiteralParam"
  | binding => "Binding"
  | optional => "Optional"
  | binaryExpression => "BinOpExpression"
  | callExpression => "CallExpression"
  | operandExpression => "EndExpression"
  | operator => "Operator"
  | builtinCall => "BuiltinCall"
  | userCall => "UserCall"
  | arguments => "Args"
  | literalOperand => "LiteralEnd"
  | pathOperand => "NamespaceEnd"
  | blockOperand => "BlockEnd"
  | groupOperand => "ParenEnd"
  | block => "Block"
  | path => "Namespace"
  | name => "Identifier"
  | typedName => "TypedIdentifier"
  | typeAscription => "TypeAnnotation"
  | arrayLiteral => "ArrayLiteral"
  | objectLiteral => "ObjectLiteral"
  | tupleLiteral => "TupleLiteral"
  | field => "KeyValuePair"
  | stringLiteral => "StringLiteral"
  | decimalLiteral => "DecimalLiteral"
  | binaryLiteral => "BinaryLiteral"
  | hexLiteral => "HexLiteral"
  | octalLiteral => "OctalLiteral"
  | floatLiteral => "FloatLiteral"
  | booleanLiteral => "BooleanLiteral"

/-- All productions. -/
def all : List Rule :=
  [program, itemElement, docElement, docComment, statementItem, expressionItem, assignmentStatement,
    definitionStatement, assignment, definition, keyword, generics, parameters, namedParameter,
    literalParameter, binding, optional, binaryExpression, callExpression, operandExpression,
    operator, builtinCall, userCall, arguments, literalOperand, pathOperand, blockOperand,
    groupOperand, block, path, name, typedName, typeAscription, arrayLiteral, objectLiteral,
    tupleLiteral, field, stringLiteral, decimalLiteral, binaryLiteral, hexLiteral, octalLiteral,
    floatLiteral, booleanLiteral]

theorem mem_all (r : Rule) : r ∈ all := by cases r <;> decide

/-- The production reported under a name. -/
def ofLabel? (name : String) : Option Rule := all.find? fun r => r.label == name

/-- **Every production is found by its name.** -/
theorem ofLabel?_label (r : Rule) : ofLabel? r.label = some r := by cases r <;> decide +kernel

end Rule

end Chainlet
