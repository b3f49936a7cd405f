import Chainlet.Grammar.Production

/-!
# Grammar/Expression — items, expressions, operands and literals

Productions of the language that contain expressions take the production for the inner expressions
as a parameter; `expressionAt` ties the knot. An inner expression always starts behind at least one
character of the outer one, so nesting is bounded by the length of the rest, and `expression` never
meets the bound.

An operator chain is read from the left: each operator and operand wraps everything before them as
its left operand (`chain`), without precedence.
-/

namespace Chainlet

namespace Grammar

open Production

/-! ## Names -/

def name : Production := leaf .name .name

def keyword : Production := leaf .keyword .keyword

/-- Names with points between them; a point with no name behind it is left. -/
def path (n : Nat) : Production := fun c => do
  let (first, d) ← name c
  let (more, e) := repeated (fun c => do name (← sign (.exactly ['.']) c)) n d
  pure (branch .path c e (first :: more), e)

/-- A colon and the name of a type. -/
def typeAscription : Production := fun c => do
  let d ← sign (.exactly [':']) c
  let (type, e) ← name d.skipBlank
  pure (branch .typeAscription c e [type], e)

/-- A name with an optional type. -/
def typedName : Production := fun c => do
  let (label, d) ← name c
  let (ascription, e) := optionalPart typeAscription d
  pure (branch .typedName c e [label, ascription], e)

/-- Names of types between angle brackets, at least one. -/
def generics (n : Nat) : Production := fun c => do
  let d ← sign (.exactly ['<']) c
  let (names, e) := separated n name d
  if names.isEmpty then none
  else
    let f ← sign (.exactly ['>']) e.skipBlank
    pure (branch .generics c f names, f)

/-! ## Literals -/

section Inner

variable (n : Nat) (inner : Production)

/-- A typed name, an equals sign and an expression. -/
def field : Production := fun c => do
  let (key, d) ← typedName c
  let e ← sign .equals d.skipBlank
  let (value, f) ← inner e.skipBlank
  pure (branch .field c f [key, value], f)

/-- The literals; a float is tried before the decimal it starts with. -/
def literal : Production :=
  firstOf
    [bracketed n .arrayLiteral ['$', '['] [']'] inner,
      bracketed n .objectLiteral ['$', '{'] ['}'] (field inner),
      bracketed n .tupleLiteral ['$', '('] [')'] inner,
      leaf .stringLiteral .string,
      leaf .floatLiteral .float,
      leaf .hexLiteral .hex,
      leaf .binaryLiteral .binary,
      leaf .octalLiteral .octal,
      leaf .decimalLiteral .decimal,
      leaf .booleanLiteral .boolean]

/-! ## Items -/

/-- A path, an equals sign and an expression. -/
def assignment : Production := fun c => do
  let (target, d) ← path n c
  let e ← sign .equals d.skipBlank
  let (value, f) ← inner e.skipBlank
  pure (branch .assignment c f [target, value], f)

/-- A parameter: a literal or a typed name. -/
def parameter : Production :=
  either (wrap .literalParameter (literal n inner)) (wrap .namedParameter typedName)

/-- An equals sign and an expression. -/
def binding : Production := fun c => do
  let d ← sign .equals c
  let (body, e) ← inner d.skipBlank
  pure (branch .binding c e [body], e)

/-- A keyword, a typed name, and then generics, parameters and a binding where they are given. -/
def definition : Production := fun c => do
  let (word, d) ← keyword c
  let (label, e) ← typedName d.skipBlank
  let (types, f) := optionalPart (generics n) e
  let (inputs, g) := commaList n .parameters (parameter n inner) f
  let (body, h) := optionalPart (binding inner) g
  pure (branch .definition c h [word, label, types, inputs, body], h)

def statement : Production :=
  either (wrap .definitionStatement (definition n inner))
    (wrap .assignmentStatement (assignment n inner))

def item : Production :=
  either (wrap .statementItem (statement n inner)) (wrap .expressionItem inner)

/-! ## Operands -/

/-- Items between braces, each ended by a semicolon. -/
def block : Production := fun c => do
  let d ← sign (.exactly ['{']) c
  let (items, e) := repeated (fun c => do
    let (t, d) ← item n inner c.skipBlank
    let e ← sign semicolon d.skipBlank
    pure (t, e)) n d
  let f ← sign (.exactly ['}']) e.skipBlank
  pure (branch .block c f items, f)

/-- An expression between parentheses. -/
def group : Production := fun c => do
  let d ← sign (.exactly ['(']) c
  let (body, e) ← inner d.skipBlank
  let f ← sign (.exactly [')']) e.skipBlank
  pure (branch .groupOperand c f [body], f)

def operand : Production :=
  firstOf
    [wrap .literalOperand (literal n inner), group inner, wrap .blockOperand (block n inner),
      wrap .pathOperand (path n)]

/-! ## Expressions -/

/-- A callee and its arguments, which need no parentheses. -/
def callOf (rule : Rule) (callee : Production) : Production := fun c => do
  let (target, d) ← callee c
  let (arguments, e) := commaList n .arguments inner d
  pure (branch rule c e [target, arguments], e)

/-- An ampersand and a call of a keyword or of a path. -/
def call : Production := fun c => do
  let d ← sign (.exactly ['&']) c
  let (target, e) ← either (callOf n inner .builtinCall keyword) (callOf n inner .userCall (path n))
    d.skipBlank
  pure (branch .callExpression c e [target], e)

/-- An operator and its right operand, with the cursor behind them. -/
def link (c : Cursor) : Option ((Tree × Tree × Cursor) × Cursor) := do
  let (sign, d) ← leaf .operator .operator c.skipBlank
  let (right, e) ← operand n inner d.skipBlank
  pure ((sign, right, e), e)

/-- A call or an operand, and then operators with operands, folded to the left. -/
def chain : Production := fun c => do
  let (head, d) ← either (call n inner) (wrap .operandExpression (operand n inner)) c
  let (links, e) := repeated (link n inner) n d
  let whole := links.foldl
    (fun left (sign, right, stop) => branch .binaryExpression c stop [left, sign, right]) head
  pure (whole, e)

end Inner

/-! ## The knot -/

/-- The expressions in a rest of fewer than the given number of characters. -/
def expressionAt : Nat → Production
  | 0, _ => none
  | n + 1, c => chain n (expressionAt n) c

/-- An expression. -/
def expression : Production := fun c => expressionAt (c.rest.length + 1) c

end Grammar

end Chainlet
