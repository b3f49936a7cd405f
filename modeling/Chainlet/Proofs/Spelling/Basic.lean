import Chainlet.Program.OfTree
import Chainlet.Proofs.Tree.Layout

/-!
# Proofs/Spelling/Basic — how a program is written down

The surface grammar as a relation between programs and lists of words: `Program.Spells p ws` holds if
`ws` are the words of `p`, with a choice wherever the language leaves one.  A `Writes` relation lays
the words of a program out in a text, with blanks between them.

`isWritable` says which programs can be written down at all: their names, operators, numbers and
strings have the forms of words, and a call, which takes whatever arguments follow it, only stands
where nothing else can follow.
-/

namespace Chainlet

/-- A word as it is written. -/
abbrev Word := List Char

/-- Groups of words with commas between them. -/
def commaSeparated : List (List Word) → List Word
  | [] => []
  | [ws] => ws
  | ws :: wss => ws ++ [','] :: commaSeparated wss

/-- A list between brackets.  A comma may follow the last element. -/
def Bracketed (opening closing : Word) (wss : List (List Word)) (ws : List Word) : Prop :=
  ws = opening :: commaSeparated wss ++ [closing] ∨
    wss ≠ [] ∧ ws = opening :: commaSeparated wss ++ [[','], closing]

/-! ## Names -/

/-- A path is one word, with points between its segments. -/
def Path.word (p : Path) : Word := p.flatten.toList

/-- A name is one word; a type behind it takes a colon and a second one. -/
def TypedName.words (n : TypedName) : List Word :=
  match n.ascription with
  | none => [n.name.toList]
  | some type => [n.name.toList, [':'], type.typeName.toList]

/-- The names of type parameters stand between angle brackets. -/
def Generics.words (g : Generics) : List Word :=
  ['<'] :: commaSeparated (g.names.map fun name => [name.toList]) ++ [['>']]

/-- Type parameters that are missing are spelt by no word. -/
def genericsWords : Option Generics → List Word
  | none => []
  | some g => g.words

/-- A function is called by its keyword or by its path, which is one word. -/
def Callee.word : Callee → Word
  | .builtin keyword => keyword.toList
  | .user path => path.word

/-- A group of which the parentheses can be left out where nothing follows. -/
def Expression.isOperand : Expression → Bool
  | .operand _ => true
  | _ => false

/-! ## Spellings -/

mutual

/-- The words that spell an expression. -/
def Expression.Spells : Expression → List Word → Prop
  | .binary left operator right _, ws =>
    ∃ us vs, ws = us ++ operator.toList :: vs ∧ left.Spells us ∧ right.Spells vs
  | .call c, ws => c.Spells ws
  | .operand v, ws => v.Spells ws

/-- A call is spelt by an ampersand, the function and the arguments with commas between them. -/
def Call.Spells : Call → List Word → Prop
  | ⟨callee, arguments, _⟩, ws =>
    ∃ wss, ws = ['&'] :: callee.word :: commaSeparated wss ∧ expressionsSpell arguments wss

/-- A group stands between parentheses; the other operands are spelt as what they hold. -/
def Operand.Spells : Operand → List Word → Prop
  | .literal v, ws => v.Spells ws
  | .path p, ws => ws = [p.word]
  | .block b, ws => b.Spells ws
  | .group inner, ws => ∃ us, ws = ['('] :: us ++ [[')']] ∧ inner.Spells us

/-- A semicolon ends every item of a block. -/
def Block.Spells : Block → List Word → Prop
  | ⟨items, _⟩, ws =>
    ∃ wss, ws = ['{'] :: wss.flatMap (· ++ [[';']]) ++ [['}']] ∧ itemsSpell items wss

/-- A float is spelled by any digits around a point that write it. -/
def Literal.Spells : Literal → List Word → Prop
  | .array elements _, ws =>
    ∃ wss, Bracketed ['$', '['] [']'] wss ws ∧ expressionsSpell elements wss
  | .object fields _, ws => ∃ wss, Bracketed ['$', '{'] ['}'] wss ws ∧ fieldsSpell fields wss
  | .tuple elements _, ws =>
    ∃ wss, Bracketed ['$', '('] [')'] wss ws ∧ expressionsSpell elements wss
  | .string content _, ws => ws = ['"' :: content.toList ++ ['"']]
  | .int text _ _, ws => ws = [text.toList]
  | .float value _, ws =>
    ∃ word, ws = [word] ∧ Form.float word = true ∧ floatValue? (String.ofList word) = some value
  | .boolean value _, ws => ws = [(if value then "@true" else "@false").toList]

/-- A field is spelt by its key, an equals sign and its value. -/
def Field.Spells : Field → List Word → Prop
  | ⟨key, value, _⟩, ws => ∃ us, ws = key.words ++ ['='] :: us ∧ value.Spells us

/-- An item is spelt as the statement or the expression that it is. -/
def Item.Spells : Item → List Word → Prop
  | .statement s, ws => s.Spells ws
  | .expression e, ws => e.Spells ws

/-- An assignment is spelt by its path, an equals sign and its value. -/
def Statement.Spells : Statement → List Word → Prop
  | .assignment target value _, ws => ∃ us, ws = target.word :: ['='] :: us ∧ value.Spells us
  | .definition d, ws => d.Spells ws

/-- A definition is spelt by its parts in their order, the parameters with commas between them. -/
def Definition.Spells : Definition → List Word → Prop
  | ⟨keyword, name, generics, parameters, binding, _⟩, ws =>
    ∃ wss us, ws = keyword.toList :: (name.words ++ (genericsWords generics ++
      (commaSeparated wss ++ us))) ∧ parametersSpell parameters wss ∧ bindingSpells binding us

/-- A parameter is spelt as a name with its type, or as the literal of its pattern. -/
def Parameter.Spells : Parameter → List Word → Prop
  | .named name, ws => ws = name.words
  | .pattern value, ws => value.Spells ws

/-- The parentheses around a body may be left out, unless they are around a single operand. -/
def Binding.Spells : Binding → List Word → Prop
  | ⟨.group inner, _⟩, ws =>
    (∃ us, ws = ['='] :: ['('] :: us ++ [[')']] ∧ inner.Spells us) ∨
      inner.isOperand = false ∧ ∃ us, ws = ['='] :: us ∧ inner.Spells us
  | ⟨body, _⟩, ws => ∃ us, ws = ['='] :: us ∧ body.Spells us

/-- A body that is missing is spelt by no word. -/
def bindingSpells : Option Binding → List Word → Prop
  | none, ws => ws = []
  | some b, ws => b.Spells ws

/-- The expressions of a list are spelt group by group. -/
def expressionsSpell : List Expression → List (List Word) → Prop
  | [], wss => wss = []
  | e :: es, wss => ∃ ws rest, wss = ws :: rest ∧ e.Spells ws ∧ expressionsSpell es rest

/-- The fields of a list are spelt group by group. -/
def fieldsSpell : List Field → List (List Word) → Prop
  | [], wss => wss = []
  | x :: xs, wss => ∃ ws rest, wss = ws :: rest ∧ x.Spells ws ∧ fieldsSpell xs rest

/-- The items of a list are spelt group by group. -/
def itemsSpell : List Item → List (List Word) → Prop
  | [], wss => wss = []
  | i :: is, wss => ∃ ws rest, wss = ws :: rest ∧ i.Spells ws ∧ itemsSpell is rest

/-- The parameters of a list are spelt group by group. -/
def parametersSpell : List Parameter → List (List Word) → Prop
  | [], wss => wss = []
  | p :: ps, wss => ∃ ws rest, wss = ws :: rest ∧ p.Spells ws ∧ parametersSpell ps rest

end

/-- An item is ended by a semicolon; a comment is one word, which ends with its line. -/
def Element.Spells : Element → List Word → Prop
  | .item i, ws => ∃ us, ws = us ++ [[';']] ∧ i.Spells us
  | .docComment d, ws => ws = ['#' :: '#' :: d.content.toList]

/-- The elements of a program are spelt one behind the other. -/
def elementsSpell : List Element → List Word → Prop
  | [], ws => ws = []
  | e :: es, ws => ∃ us vs, ws = us ++ vs ∧ e.Spells us ∧ elementsSpell es vs

/-- **The words that spell a program.** -/
def Program.Spells (p : Program) (ws : List Word) : Prop := elementsSpell p.elements ws

/-! ## Layout of words -/

/-- A text of words with blanks behind each of them.  Only the last word may have none, and a comment
ends with its line. -/
def Laid : List Word → List Char → Prop
  | [], text => text = []
  | w :: ws, text => ∃ gap rest, text = w ++ (gap ++ rest) ∧ gap.all isBlank = true ∧
    (ws ≠ [] → gap ≠ []) ∧ (w.take 2 = ['#', '#'] → gap.head? = some '\n') ∧ Laid ws rest

/-- **A source that writes a program down:** a spelling of it behind any blanks. -/
def Program.Writes (p : Program) (source : String) : Prop :=
  ∃ ws blanks text, p.Spells ws ∧ source.toList = blanks ++ text ∧ blanks.all isBlank = true ∧
    Laid ws text

/-! ## Programs that can be written down -/

/-- Whether a name and its type have the forms of names. -/
def TypedName.isWritable (n : TypedName) : Bool :=
  Form.name n.name.toList && n.ascription.all fun type => Form.name type.typeName.toList

/-- Whether type parameters have the forms of names, and there is one at least. -/
def Generics.isWritable (g : Generics) : Bool :=
  !g.names.isEmpty && g.names.all fun name => Form.name name.toList

/-- Whether all segments of a path have the forms of names, and there is one at least. -/
def Path.isWritable (p : Path) : Bool :=
  !p.segments.isEmpty && p.segments.all fun name => Form.name name.toList

/-- Whether a function has the form of a keyword, or of a path. -/
def Callee.isWritable : Callee → Bool
  | .builtin keyword => Form.keyword keyword.toList
  | .user path => path.isWritable

/-- The form of the integers of a base. -/
def Base.form : Base → Word → Bool
  | decimal => Form.digits Char.isDigit
  | binary => Form.based ['0', 'b'] isBinaryDigit
  | hexadecimal => Form.based ['0', 'x'] isHexDigit
  | octal => Form.based ['0', 'c'] isOctalDigit

mutual

/-- Whether an expression can be written where a call may or may not stand. -/
def Expression.isWritable (calls : Bool) : Expression → Bool
  | .binary left operator right _ =>
    left.isWritable false && (Form.operator operator.toList && right.isWritable)
  | .call c => calls && c.isWritable
  | .operand v => v.isWritable

/-- Whether a call has a function and arguments that can be written down. -/
def Call.isWritable : Call → Bool
  | ⟨callee, arguments, _⟩ => callee.isWritable && areWritable arguments

def Operand.isWritable : Operand → Bool
  | .literal v => v.isWritable
  | .path p => p.isWritable
  | .block b => b.isWritable
  | .group inner => inner.isWritable true

def Block.isWritable : Block → Bool
  | ⟨items, _⟩ => itemsAreWritable items

/-- Whether a literal has a word of its form; the floats read from words always have one. -/
def Literal.isWritable : Literal → Bool
  | .array elements _ | .tuple elements _ => areWritable elements
  | .object fields _ => fieldsAreWritable fields
  | .string content _ => Form.string ('"' :: content.toList ++ ['"'])
  | .int text base _ => base.form text.toList
  | .float _ _ | .boolean _ _ => true

/-- Whether a field can be written down; no call may stand as its value. -/
def Field.isWritable : Field → Bool
  | ⟨key, value, _⟩ => key.isWritable && value.isWritable false

def Item.isWritable : Item → Bool
  | .statement s => s.isWritable
  | .expression e => e.isWritable true

/-- Whether a statement can be written down; a call may stand as the value assigned. -/
def Statement.isWritable : Statement → Bool
  | .assignment target value _ => target.isWritable && value.isWritable true
  | .definition d => d.isWritable

/-- Whether all parts of a definition can be written down. -/
def Definition.isWritable : Definition → Bool
  | ⟨keyword, name, generics, parameters, binding, _⟩ =>
    Form.keyword keyword.toList && (name.isWritable && (generics.all Generics.isWritable &&
      (parametersAreWritable parameters && bindingIsWritable binding)))

def Parameter.isWritable : Parameter → Bool
  | .named name => name.isWritable
  | .pattern value => value.isWritable

def Binding.isWritable : Binding → Bool
  | ⟨body, _⟩ => body.isWritable

def bindingIsWritable : Option Binding → Bool
  | none => true
  | some b => b.isWritable

/-- Expressions in a list, where no call may stand. -/
def areWritable : List Expression → Bool
  | [] => true
  | e :: es => e.isWritable false && areWritable es

def fieldsAreWritable : List Field → Bool
  | [] => true
  | x :: xs => x.isWritable && fieldsAreWritable xs

def itemsAreWritable : List Item → Bool
  | [] => true
  | i :: is => i.isWritable && itemsAreWritable is

def parametersAreWritable : List Parameter → Bool
  | [] => true
  | p :: ps => p.isWritable && parametersAreWritable ps

end

/-- Whether an element can be written down: a comment must fit its line. -/
def Element.isWritable : Element → Bool
  | .item i => i.isWritable
  | .docComment d => d.content.toList.all (· != '\n')

/-- **Whether a program can be written down.** -/
def Program.isWritable (p : Program) : Bool := p.elements.all Element.isWritable

end Chainlet
