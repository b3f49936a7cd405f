import Chainlet.Program.Composite

/-!
# Proofs/Program/Construct — what occurs in a program

`Program.constructs` lists the operators, literals, assignments and nested definitions of a program
in the order in which they are met, at any depth: in chains, arguments, groups, blocks, and in the
elements and fields of literals.  The patterns among the parameters of a definition are no part of it,
its body is.

What is in an array, a tuple or an object stands behind the literal itself (`Literal.constructs_eq`),
so a composite literal that is inside another one is found among the constructs of its `entries`.
-/

namespace Chainlet

/-- Something that occurs in a program and has code, or is refused. -/
inductive Construct where
  | operator (text : String)
  | literal (value : Literal)
  | assignment (target : Path)
  /-- A definition that does not stand at the top level. -/
  | nestedDefinition

/-! ## Occurrences -/

mutual

/-- What occurs in an expression: in a chain the operator stands behind its operands. -/
def Expression.constructs : Expression → List Construct
  | .binary left operator right _ => left.constructs ++ right.constructs ++ [.operator operator]
  | .call c => c.constructs
  | .operand value => value.constructs

def Call.constructs : Call → List Construct
  | ⟨_, arguments, _⟩ => expressionsConstructs arguments

def Operand.constructs : Operand → List Construct
  | .literal value => value.constructs
  | .path _ => []
  | .block b => b.constructs
  | .group inner => inner.constructs

def Block.constructs : Block → List Construct
  | ⟨items, _⟩ => itemsConstructs items

def Literal.constructs : Literal → List Construct
  | value@(.array elements _) | value@(.tuple elements _) =>
    .literal value :: expressionsConstructs elements
  | value@(.object fields _) => .literal value :: fieldsConstructs fields
  | value => [.literal value]

def Item.constructs : Item → List Construct
  | .expression e => e.constructs
  | .statement (.assignment target value _) => value.constructs ++ [.assignment target]
  | .statement (.definition d) => .nestedDefinition :: d.constructs

def Definition.constructs : Definition → List Construct
  | ⟨_, _, _, _, binding, _⟩ => bindingConstructs binding

def bindingConstructs : Option Binding → List Construct
  | none => []
  | some ⟨body, _⟩ => body.constructs

def expressionsConstructs : List Expression → List Construct
  | [] => []
  | e :: es => e.constructs ++ expressionsConstructs es

def fieldsConstructs : List Field → List Construct
  | [] => []
  | ⟨_, e, _⟩ :: fs => e.constructs ++ fieldsConstructs fs

def itemsConstructs : List Item → List Construct
  | [] => []
  | i :: is => i.constructs ++ itemsConstructs is

end

/-- A definition at the top level is not a nested one. -/
def Element.constructs : Element → List Construct
  | .docComment _ => []
  | .item (.statement (.definition d)) => d.constructs
  | .item i => i.constructs

def Program.constructs (p : Program) : List Construct := p.elements.flatMap Element.constructs

/-! ## Literals -/

/-- The expressions that a literal is made of: elements, or the values of fields. -/
def Literal.entries : Literal → List Expression
  | array elements _ | tuple elements _ => elements
  | object fields _ => fields.map Field.value
  | _ => []

/-- Whether a construct is an array or an object. -/
def Construct.isComposite : Construct → Bool
  | literal value => value.isComposite
  | _ => false

/-- Whether a construct is a float written out. -/
def Construct.isFloat : Construct → Bool
  | literal (.float _ _) => true
  | _ => false

theorem Construct.isFloat_iff {c : Construct} :
    c.isFloat = true ↔ ∃ x span, c = .literal (.float x span) := by
  constructor
  · intro h
    unfold isFloat at h
    split at h
    · next x span => exact ⟨x, span, rfl⟩
    · cases h
  · rintro ⟨x, span, rfl⟩
    rfl

theorem expressionsConstructs_eq (es : List Expression) :
    expressionsConstructs es = es.flatMap Expression.constructs := by
  induction es with
  | nil => rw [expressionsConstructs, List.flatMap_nil]
  | cons e es ih => rw [expressionsConstructs, ih, List.flatMap_cons]

theorem fieldsConstructs_eq (fs : List Field) :
    fieldsConstructs fs = (fs.map Field.value).flatMap Expression.constructs := by
  induction fs with
  | nil => rw [fieldsConstructs, List.map_nil, List.flatMap_nil]
  | cons f fs ih =>
    obtain ⟨key, e, span⟩ := f
    rw [fieldsConstructs, ih, List.map_cons, List.flatMap_cons]

/-- **What occurs in a literal: itself, then what occurs in its entries.** -/
theorem Literal.constructs_eq (value : Literal) :
    value.constructs = .literal value :: value.entries.flatMap Expression.constructs := by
  cases value with
  | array elements _ => rw [constructs, expressionsConstructs_eq, entries]
  | object fields _ => rw [constructs, fieldsConstructs_eq, entries]
  | tuple elements _ => rw [constructs, expressionsConstructs_eq, entries]
  | string | int | float | boolean => simp only [constructs, entries, List.flatMap_nil]

end Chainlet
