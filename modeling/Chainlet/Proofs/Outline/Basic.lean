import Chainlet.Program.OfTree
import Mathlib.Data.List.Basic

/-!
# Proofs/Outline/Basic — the nodes of a program that have spans

Programs are made of parts of many types, and only some of the parts have a span of their own.  The
`Outline` of a program keeps those, each above the ones inside of it, with what each says about the text
it stands for (`Content`).  An outline `StandsIn` a source if its span is the place of such a text, and
`Encloses` another one if the other's span lies in its own.
-/

namespace Chainlet

/-- Whether a span lies in another one. -/
def Span.Inside (s outer : Span) : Prop := outer.start ≤ s.start ∧ s.stop ≤ outer.stop

/-- A span lies inside itself. -/
theorem Span.Inside.refl (s : Span) : s.Inside s := ⟨Nat.le_refl _, Nat.le_refl _⟩

/-- A span inside a span lies inside whatever that one lies in. -/
theorem Span.Inside.trans {a b c : Span} (h : a.Inside b) (h' : b.Inside c) : a.Inside c :=
  ⟨Nat.le_trans h'.1 h.1, Nat.le_trans h.2 h'.2⟩

/-! ## Outlines -/

/-- What a node says about the text that it was read from. -/
inductive Content where
  | docComment (content : String)
  | string (content : String)
  | int (text : String)
  | float (value : Binary32)
  | boolean (value : Bool)
  | path (flattened : String)
  | typedName (name : String) (typed : Bool)
  | ascription (typeName : String)
  | definition (keyword : String)
  | call
  /-- A node that says something about other nodes only. -/
  | composite

/-- Whether a text is one that a node with such a content stands for. -/
def Content.Spells : Content → String → Prop
  | docComment content, text => text = "##" ++ content
  | string content, text => text = "\"" ++ content ++ "\""
  | int digits, text => text = digits
  | float value, text => floatValue? text = some value
  | boolean value, text => text = if value then "@true" else "@false"
  | path flattened, text => text = flattened
  | typedName name typed, text => (∃ more, text = name ++ more) ∧ (typed = false → text = name)
  | ascription typeName, text => ∃ between, text = ":" ++ between ++ typeName
  | definition keyword, text => ∃ more, text = keyword ++ more
  | call, text => ∃ more, text = "&" ++ more
  | composite, _ => True

/-- A number without a sign, infinity included. -/
def Binary32.Plain (x : Binary32) : Prop := x.isNegative = false ∧ x.isNaN = false

/-- Whether the number of a float has no sign. -/
def Content.Plain : Content → Prop
  | float value => value.Plain
  | _ => True

/-- A node with a span, and the nodes with spans right inside of it. -/
inductive Outline where
  | node (content : Content) (span : Option Span) (parts : List Outline)

namespace Outline

/-- What the root of an outline says about its text. -/
def content : Outline → Content
  | node content _ _ => content

/-- The span of the root of an outline. -/
def span : Outline → Option Span
  | node _ span _ => span

/-- The outlines right inside of the root. -/
def parts : Outline → List Outline
  | node _ _ parts => parts

mutual

/-- The nodes of an outline, each before those below it. -/
def nodes : Outline → List Outline
  | node content span parts => node content span parts :: nodesAll parts

/-- The nodes of outlines one after the other. -/
def nodesAll : List Outline → List Outline
  | [] => []
  | o :: os => o.nodes ++ nodesAll os

end

/-- The nodes of a list of outlines are the nodes of its members. -/
theorem mem_nodesAll {n : Outline} {os : List Outline} : n ∈ nodesAll os ↔ ∃ o ∈ os, n ∈ o.nodes := by
  induction os with
  | nil => simp [nodesAll]
  | cons o os ih => simp [nodesAll, ih]

/-- Whether an outline has the span of a text of the source that it spells.  Both ends of the span are
ends of characters. -/
def StandsIn (o : Outline) (source : String) : Prop :=
  ∃ before text after : String, source = before ++ text ++ after ∧
    o.span = some ⟨before.utf8ByteSize, (before ++ text).utf8ByteSize⟩ ∧ o.content.Spells text

/-- Whether the span of an outline contains that of another one. -/
def Encloses (o p : Outline) : Prop :=
  ∃ s s' : Span, o.span = some s ∧ p.span = some s' ∧ s'.Inside s

/-- An outline whose nodes all stand in a source and, below the root, enclose everything below them. -/
structure TrueTo (root : Outline) (source : String) : Prop where
  stands : ∀ n ∈ root.nodes, n.StandsIn source
  encloses : ∀ part ∈ root.parts, ∀ n ∈ part.nodes, ∀ m ∈ nodesAll n.parts, n.Encloses m

/-! ## Floats -/

/-- Whether no float in an outline has a sign. -/
def Plain (o : Outline) : Prop := ∀ n ∈ o.nodes, n.content.Plain

/-- Whether no float in outlines has a sign. -/
def AllPlain (os : List Outline) : Prop := ∀ n ∈ nodesAll os, n.content.Plain

variable {o : Outline} {os ps : List Outline} {content : Content} {span : Option Span}

theorem plain_node : (node content span os).Plain ↔ content.Plain ∧ AllPlain os := by
  rw [Plain, nodes, List.forall_mem_cons]
  rfl

theorem allPlain_cons : AllPlain (o :: os) ↔ o.Plain ∧ AllPlain os := by
  rw [AllPlain, nodesAll, List.forall_mem_append]
  rfl

theorem allPlain_append : AllPlain (os ++ ps) ↔ AllPlain os ∧ AllPlain ps := by
  induction os with
  | nil => exact ⟨fun h => ⟨fun _ => nofun, h⟩, And.right⟩
  | cons o os ih => rw [List.cons_append, allPlain_cons, allPlain_cons, ih, and_assoc]

end Outline

/-! ## Names -/

/-- A type annotation is a node without parts. -/
def TypeAscription.outline (a : TypeAscription) : Outline := .node (.ascription a.typeName) a.span []

def TypedName.outline (n : TypedName) : Outline :=
  .node (.typedName n.name n.ascription.isSome) n.span (n.ascription.toList.map TypeAscription.outline)

/-- Type parameters are a node without parts, for their names have no spans. -/
def Generics.outline (g : Generics) : Outline := .node .composite g.span []

/-- A path is a node without parts; its text is the path with points. -/
def Path.outline (p : Path) : Outline := .node (.path p.flatten) p.span []

/-- A comment is a node without parts. -/
def DocComment.outline (d : DocComment) : Outline := .node (.docComment d.content) d.span []

/-- A path that is called is a node of its own; a keyword has no span. -/
def Callee.outlines : Callee → List Outline
  | .builtin _ => []
  | .user path => [path.outline]

/-! ## Parts with expressions -/

mutual

/-- The outlines of the outermost nodes with spans in an expression. -/
def Expression.outlines : Expression → List Outline
  | .binary left _ right span => [.node .composite span (left.outlines ++ right.outlines)]
  | .call c => [c.outline]
  | .operand v => v.outlines

/-- A call is a node around the function and the arguments. -/
def Call.outline : Call → Outline
  | ⟨callee, arguments, span⟩ => .node .call span (callee.outlines ++ expressionsOutlines arguments)

/-- A group is no node: it counts as what stands in its parentheses. -/
def Operand.outlines : Operand → List Outline
  | .literal v => [v.outline]
  | .path p => [p.outline]
  | .block b => [b.outline]
  | .group inner => inner.outlines

/-- A block is a node around its items. -/
def Block.outline : Block → Outline
  | ⟨items, span⟩ => .node .composite span (itemsOutlines items)

/-- A word is a node without parts; the other literals are nodes around their elements. -/
def Literal.outline : Literal → Outline
  | .array elements span => .node .composite span (expressionsOutlines elements)
  | .object fields span => .node .composite span (fieldsOutlines fields)
  | .tuple elements span => .node .composite span (expressionsOutlines elements)
  | .string content span => .node (.string content) span []
  | .int text _ span => .node (.int text) span []
  | .float value span => .node (.float value) span []
  | .boolean value span => .node (.boolean value) span []

/-- A field is a node around its key and its value. -/
def Field.outline : Field → Outline
  | ⟨key, value, span⟩ => .node .composite span (key.outline :: value.outlines)

/-- An item has no span of its own: it counts as its statement or its expression. -/
def Item.outlines : Item → List Outline
  | .statement s => [s.outline]
  | .expression e => e.outlines

/-- An assignment is a node around its target and its value. -/
def Statement.outline : Statement → Outline
  | .assignment target value span => .node .composite span (target.outline :: value.outlines)
  | .definition d => d.outline

/-- A definition is a node around all its parts. -/
def Definition.outline : Definition → Outline
  | ⟨keyword, name, generics, parameters, binding, span⟩ =>
    .node (.definition keyword) span (name.outline :: (generics.toList.map Generics.outline ++
      (parametersOutlines parameters ++ bindingOutlines binding)))

/-- A parameter has no span of its own: it counts as its name or its pattern. -/
def Parameter.outline : Parameter → Outline
  | .named name => name.outline
  | .pattern value => value.outline

/-- The body of a definition stands in a node of its own. -/
def Binding.outline : Binding → Outline
  | ⟨body, span⟩ => .node .composite span body.outlines

/-- A body that is missing has no outline. -/
def bindingOutlines : Option Binding → List Outline
  | none => []
  | some b => [b.outline]

/-- The outlines of the expressions of a list, in their order. -/
def expressionsOutlines : List Expression → List Outline
  | [] => []
  | e :: es => e.outlines ++ expressionsOutlines es

/-- The outlines of the fields of a list, in their order. -/
def fieldsOutlines : List Field → List Outline
  | [] => []
  | x :: xs => x.outline :: fieldsOutlines xs

/-- The outlines of the items of a list, in their order. -/
def itemsOutlines : List Item → List Outline
  | [] => []
  | i :: is => i.outlines ++ itemsOutlines is

/-- The outlines of the parameters of a list, in their order. -/
def parametersOutlines : List Parameter → List Outline
  | [] => []
  | p :: ps => p.outline :: parametersOutlines ps

end

section Lists

variable {o : Outline}

theorem mem_expressionsOutlines {es : List Expression} :
    o ∈ expressionsOutlines es ↔ ∃ e ∈ es, o ∈ e.outlines := by
  induction es with
  | nil => simp [expressionsOutlines]
  | cons e es ih => simp [expressionsOutlines, ih]

theorem mem_fieldsOutlines {xs : List Field} : o ∈ fieldsOutlines xs ↔ ∃ x ∈ xs, o = x.outline := by
  induction xs with
  | nil => simp [fieldsOutlines]
  | cons x xs ih => simp [fieldsOutlines, ih]

theorem mem_itemsOutlines {is : List Item} : o ∈ itemsOutlines is ↔ ∃ i ∈ is, o ∈ i.outlines := by
  induction is with
  | nil => simp [itemsOutlines]
  | cons i is ih => simp [itemsOutlines, ih]

theorem mem_parametersOutlines {ps : List Parameter} :
    o ∈ parametersOutlines ps ↔ ∃ p ∈ ps, o = p.outline := by
  induction ps with
  | nil => simp [parametersOutlines]
  | cons p ps ih => simp [parametersOutlines, ih]

end Lists

/-! ## Programs -/

/-- The outlines of an element of a program. -/
def Element.outlines : Element → List Outline
  | .item i => i.outlines
  | .docComment d => [d.outline]

/-- **The outline of a program.** -/
def Program.outline (p : Program) : Outline :=
  .node .composite p.span (p.elements.flatMap Element.outlines)

end Chainlet
