import Chainlet.Grammar.Lexeme
import Chainlet.Tree.Basic

/-!
# Proofs/Tree/Layout — what the nodes of a parse tree look like

`Rule.layout` says which children a node of a rule has and in which order, and `Rule.form?` which
words a leaf of a rule may be.  Both are tables that can be evaluated: a tree `conforms` when every
node in it has the layout of its rule (`Tree.laidOut`) and every leaf the form (`Tree.spelt`).
-/

namespace Chainlet

/-! ## Forms of words -/

namespace Form

/-- A letter or an underscore, and then letters, digits and underscores. -/
def name : List Char → Bool
  | [] => false
  | c :: cs => isNameStart c && cs.all isNameChar

/-- An at sign and a name. -/
def keyword : List Char → Bool
  | '@' :: cs => name cs
  | _ => false

/-- Operator characters, at least one, but not the equals sign alone. -/
def operator (word : List Char) : Bool :=
  !word.isEmpty && (word != ['='] && word.all isOperatorChar)

/-- Two number signs and no line break. -/
def docComment : List Char → Bool
  | '#' :: '#' :: cs => cs.all (· != '\n')
  | _ => false

/-- The rest of a string: no quote that is not escaped but the last character. -/
def closed : List Char → Bool
  | [] => false
  | '\\' :: _ :: cs => closed cs
  | c :: cs => if c = '"' then cs.isEmpty else closed cs

/-- A quote and the rest of a string. -/
def string : List Char → Bool
  | '"' :: cs => closed cs
  | _ => false

/-- A digit, and then digits and underscores. -/
def digits (isDigit : Char → Bool) : List Char → Bool
  | [] => false
  | c :: cs => isDigit c && cs.all fun c => isDigit c || c == '_'

/-- Digits on both sides of a point. -/
def float (word : List Char) : Bool :=
  digits Char.isDigit (word.takeWhile (· != '.')) &&
    digits Char.isDigit (word.dropWhile (· != '.')).tail

/-- The mark of a base and digits of that base. -/
def based (mark : List Char) (isDigit : Char → Bool) (word : List Char) : Bool :=
  mark.isPrefixOf word && digits isDigit (word.drop mark.length)

def boolean (word : List Char) : Bool := word == "@true".toList || word == "@false".toList

/-- The rest of a string ends in a quote. -/
theorem closed_getLast {word : List Char} (h : closed word = true) :
    ∃ content, word = content ++ ['"'] := by
  fun_induction closed word with
  | case1 => cases h
  | case2 c cs ih =>
    obtain ⟨content, rfl⟩ := ih h
    exact ⟨'\\' :: c :: content, rfl⟩
  | case3 cs hback => exact ⟨[], by rw [List.isEmpty_iff.1 h]; rfl⟩
  | case4 c cs hback hc ih =>
    obtain ⟨content, rfl⟩ := ih h
    exact ⟨c :: content, rfl⟩

/-- A string is its content between two quotes. -/
theorem string_eq {word : List Char} (h : string word = true) :
    ∃ content, word = '"' :: content ++ ['"'] := by
  unfold string at h
  split at h
  · obtain ⟨content, rfl⟩ := closed_getLast h
    exact ⟨content, rfl⟩
  · cases h

theorem float_eq {word : List Char} (h : float word = true) :
    ∃ whole fraction, digits Char.isDigit whole = true ∧ digits Char.isDigit fraction = true ∧
      word = whole ++ '.' :: fraction := by
  rw [float, Bool.and_eq_true] at h
  refine ⟨word.takeWhile (· != '.'), (word.dropWhile (· != '.')).tail, h.1, h.2, ?_⟩
  cases hdrop : word.dropWhile (· != '.') with
  | nil => rw [hdrop] at h; exact absurd h.2 (by decide)
  | cons c cs =>
    have hpoint : (c != '.') = false := by
      have hhead := List.head?_dropWhile_not (· != '.') word
      rw [hdrop] at hhead
      simpa using hhead
    have hc : c = '.' := by simpa using hpoint
    rw [List.tail_cons]
    subst hc
    rw [← hdrop]
    exact List.takeWhile_append_dropWhile.symm

end Form

/-- The form of the leaves of a rule. -/
def Rule.form? : Rule → Option (List Char → Bool)
  | .docComment => some Form.docComment
  | .keyword => some Form.keyword
  | .operator => some Form.operator
  | .name => some Form.name
  | .stringLiteral => some Form.string
  | .decimalLiteral => some (Form.digits Char.isDigit)
  | .binaryLiteral => some (Form.based ['0', 'b'] isBinaryDigit)
  | .hexLiteral => some (Form.based ['0', 'x'] isHexDigit)
  | .octalLiteral => some (Form.based ['0', 'c'] isOctalDigit)
  | .floatLiteral => some Form.float
  | .booleanLiteral => some Form.boolean
  | _ => none

/-! ## Layouts -/

/-- What may stand at one place among the children of a node. -/
inductive Slot where
  | rule (rule : Rule)
  | category (category : Category)
  /-- A node for a part that may be missing, with that part as its child if it is there. -/
  | optional (rule : Rule)
deriving DecidableEq, Repr

/-- The children of a node. -/
inductive Layout where
  | leaf
  | fixed (slots : List Slot)
  | many (slot : Slot)
  | some (slot : Slot)
  | atMostOne
deriving DecidableEq, Repr

/-- Whether a tree may stand at a place. -/
def Slot.admits : Slot → Tree → Bool
  | rule r, t => t.rule == r
  | category k, t => t.rule.category == k
  | optional r, t => t.rule == .optional && t.children.all fun child => child.rule == r

/-- Whether trees may stand at the places one by one. -/
def Slot.admitsEach : List Slot → List Tree → Bool
  | [], [] => true
  | s :: ss, t :: ts => s.admits t && admitsEach ss ts
  | _, _ => false

theorem Slot.admitsEach_nil_iff {ts : List Tree} : admitsEach [] ts = true ↔ ts = [] := by
  cases ts with
  | nil => exact ⟨fun _ => rfl, fun _ => rfl⟩
  | cons t ts => exact ⟨(nomatch ·), (nomatch ·)⟩

theorem Slot.admitsEach_cons_iff {s : Slot} {ss : List Slot} {ts : List Tree} :
    admitsEach (s :: ss) ts = true ↔
      ∃ t us, ts = t :: us ∧ s.admits t = true ∧ admitsEach ss us = true := by
  cases ts with
  | nil => exact ⟨(nomatch ·), fun ⟨_, _, hcons, _⟩ => nomatch hcons⟩
  | cons t ts =>
    rw [admitsEach, Bool.and_eq_true]
    constructor
    · rintro ⟨hfirst, hrest⟩
      exact ⟨t, ts, rfl, hfirst, hrest⟩
    · rintro ⟨_, _, hcons, hfirst, hrest⟩
      cases hcons
      exact ⟨hfirst, hrest⟩

def Layout.admits : Layout → List Tree → Bool
  | leaf, ts => ts.isEmpty
  | fixed slots, ts => Slot.admitsEach slots ts
  | many slot, ts => ts.all slot.admits
  | some slot, ts => !ts.isEmpty && ts.all slot.admits
  | atMostOne, ts => ts.length ≤ 1

/-- The children that the nodes of a rule have. -/
def Rule.layout : Rule → Layout
  | .program => .many (.category .element)
  | .itemElement => .fixed [.category .item]
  | .docElement => .fixed [.rule .docComment]
  | .statementItem => .fixed [.category .statement]
  | .expressionItem => .fixed [.category .expression]
  | .assignmentStatement => .fixed [.rule .assignment]
  | .definitionStatement => .fixed [.rule .definition]
  | .assignment => .fixed [.rule .path, .category .expression]
  | .definition =>
    .fixed [.rule .keyword, .rule .typedName, .optional .generics, .rule .parameters,
      .optional .binding]
  | .generics => .many (.rule .name)
  | .parameters => .many (.category .parameter)
  | .namedParameter => .fixed [.rule .typedName]
  | .literalParameter => .fixed [.category .literal]
  | .binding => .fixed [.category .expression]
  | .optional => .atMostOne
  | .binaryExpression => .fixed [.category .expression, .rule .operator, .category .operand]
  | .callExpression => .fixed [.category .call]
  | .operandExpression => .fixed [.category .operand]
  | .builtinCall => .fixed [.rule .keyword, .rule .arguments]
  | .userCall => .fixed [.rule .path, .rule .arguments]
  | .arguments => .many (.category .expression)
  | .literalOperand => .fixed [.category .literal]
  | .pathOperand => .fixed [.rule .path]
  | .blockOperand => .fixed [.rule .block]
  | .groupOperand => .fixed [.category .expression]
  | .block => .many (.category .item)
  | .path => .some (.rule .name)
  | .typedName => .fixed [.rule .name, .optional .typeAscription]
  | .typeAscription => .fixed [.rule .name]
  | .arrayLiteral => .many (.category .expression)
  | .objectLiteral => .many (.rule .field)
  | .tupleLiteral => .many (.category .expression)
  | .field => .fixed [.rule .typedName, .category .expression]
  | .docComment | .keyword | .operator | .name | .stringLiteral | .decimalLiteral | .binaryLiteral
  | .hexLiteral | .octalLiteral | .floatLiteral | .booleanLiteral => .leaf

/-- **The leaves are the rules with a form.** -/
theorem Rule.layout_eq_leaf_iff (r : Rule) : r.layout = .leaf ↔ r.form?.isSome = true := by
  cases r <;> decide

/-! ## Trees that conform -/

namespace Tree

/-- Whether the children of a node are those of its rule. -/
def laidOut (t : Tree) : Bool := t.rule.layout.admits t.children

/-- Whether the text of a node has the form of its rule, if that has one. -/
def spelt (t : Tree) : Bool := t.rule.form?.all fun form => form t.text.toList

mutual

/-- Whether every node of a tree passes a test. -/
def every (test : Tree → Bool) : Tree → Bool
  | node r text start ts => test (node r text start ts) && everyAll test ts

def everyAll (test : Tree → Bool) : List Tree → Bool
  | [] => true
  | t :: ts => every test t && everyAll test ts

end

theorem everyAll_eq_all (test : Tree → Bool) (ts : List Tree) :
    everyAll test ts = ts.all (every test) := by
  induction ts with
  | nil => rfl
  | cons t ts ih => rw [everyAll, ih, List.all_cons]

/-- **Whether every node has the children and the text of its rule.** -/
def conforms (t : Tree) : Bool := t.every fun u => u.laidOut && u.spelt

theorem conforms_iff {rule : Rule} {text : String} {start : Option Nat} {ts : List Tree} :
    (node rule text start ts).conforms = true ↔
      rule.layout.admits ts = true ∧ (node rule text start ts).spelt = true ∧
        ∀ t ∈ ts, t.conforms = true := by
  rw [conforms, every, everyAll_eq_all, Bool.and_eq_true, Bool.and_eq_true, List.all_eq_true,
    and_assoc]
  rfl

mutual

/-- What holds of a node if it holds of its children holds of every tree. -/
theorem induction {P : Tree → Prop}
    (h : ∀ rule text start ts, (∀ t ∈ ts, P t) → P (node rule text start ts)) : ∀ t, P t
  | node rule text start ts => h rule text start ts (inductionAll h ts)

theorem inductionAll {P : Tree → Prop}
    (h : ∀ rule text start ts, (∀ t ∈ ts, P t) → P (node rule text start ts)) :
    ∀ ts : List Tree, ∀ t ∈ ts, P t
  | [] => fun _ hmem => nomatch hmem
  | t :: ts => List.forall_mem_cons.2 ⟨induction h t, inductionAll h ts⟩

end

end Tree

end Chainlet
