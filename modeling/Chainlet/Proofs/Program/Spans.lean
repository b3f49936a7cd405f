import Chainlet.Program.Basic

/-!
# Proofs/Program/Spans — programs with other spans

`Program.mapSpans` gives every node of a program the span that a function makes of its own, and keeps
all the rest; `Program.eraseSpans` leaves no spans at all.  Two programs that differ in nothing but
where they stand have the same erasure.
-/

namespace Chainlet

variable (f : Span → Option Span)

/-! ## Parts without expressions -/

/-- The type annotation with its span mapped by `f`. -/
def TypeAscription.mapSpans (a : TypeAscription) : TypeAscription :=
  { a with span := a.span.bind f }

/-- The name with the spans of itself and of its type mapped by `f`. -/
def TypedName.mapSpans (n : TypedName) : TypedName :=
  { n with ascription := n.ascription.map (TypeAscription.mapSpans f), span := n.span.bind f }

/-- The type parameters with their span mapped by `f`. -/
def Generics.mapSpans (g : Generics) : Generics := { g with span := g.span.bind f }

/-- The path with its span mapped by `f`. -/
def Path.mapSpans (p : Path) : Path := { p with span := p.span.bind f }

/-- The comment with its span mapped by `f`. -/
def DocComment.mapSpans (d : DocComment) : DocComment := { d with span := d.span.bind f }

/-- The function called, with the span of its path mapped by `f`; a builtin has none. -/
def Callee.mapSpans : Callee → Callee
  | .builtin keyword => .builtin keyword
  | .user path => .user (path.mapSpans f)

/-! ## Parts with expressions -/

mutual

/-- The expression with every span in it mapped by `f`. -/
def Expression.mapSpans : Expression → Expression
  | .binary left operator right span =>
    .binary left.mapSpans operator right.mapSpans (span.bind f)
  | .call c => .call c.mapSpans
  | .operand v => .operand v.mapSpans

/-- The call with every span in it mapped by `f`. -/
def Call.mapSpans : Call → Call
  | ⟨callee, arguments, span⟩ => ⟨callee.mapSpans f, expressionsMapSpans arguments, span.bind f⟩

/-- The operand with every span in it mapped by `f`. -/
def Operand.mapSpans : Operand → Operand
  | .literal v => .literal v.mapSpans
  | .path p => .path (p.mapSpans f)
  | .block b => .block b.mapSpans
  | .group inner => .group inner.mapSpans

/-- The block with every span in it mapped by `f`. -/
def Block.mapSpans : Block → Block
  | ⟨items, span⟩ => ⟨itemsMapSpans items, span.bind f⟩

/-- The literal with every span in it mapped by `f`. -/
def Literal.mapSpans : Literal → Literal
  | .array elements span => .array (expressionsMapSpans elements) (span.bind f)
  | .object fields span => .object (fieldsMapSpans fields) (span.bind f)
  | .tuple elements span => .tuple (expressionsMapSpans elements) (span.bind f)
  | .string content span => .string content (span.bind f)
  | .int text base span => .int text base (span.bind f)
  | .float value span => .float value (span.bind f)
  | .boolean value span => .boolean value (span.bind f)

/-- The field with the spans of its key and its value mapped by `f`. -/
def Field.mapSpans : Field → Field
  | ⟨key, value, span⟩ => ⟨key.mapSpans f, value.mapSpans, span.bind f⟩

/-- The item with every span in it mapped by `f`. -/
def Item.mapSpans : Item → Item
  | .statement s => .statement s.mapSpans
  | .expression e => .expression e.mapSpans

/-- The statement with every span in it mapped by `f`. -/
def Statement.mapSpans : Statement → Statement
  | .assignment target value span =>
    .assignment (target.mapSpans f) value.mapSpans (span.bind f)
  | .definition d => .definition d.mapSpans

/-- The definition with the spans of all its parts mapped by `f`. -/
def Definition.mapSpans : Definition → Definition
  | ⟨keyword, name, generics, parameters, binding, span⟩ =>
    ⟨keyword, name.mapSpans f, generics.map (Generics.mapSpans f), parametersMapSpans parameters,
      bindingMapSpans binding, span.bind f⟩

/-- The parameter with every span in it mapped by `f`. -/
def Parameter.mapSpans : Parameter → Parameter
  | .named name => .named (name.mapSpans f)
  | .pattern value => .pattern value.mapSpans

/-- The body of a definition with every span in it mapped by `f`. -/
def Binding.mapSpans : Binding → Binding
  | ⟨body, span⟩ => ⟨body.mapSpans, span.bind f⟩

/-- The body that may be missing, with its spans mapped by `f`. -/
def bindingMapSpans : Option Binding → Option Binding
  | none => none
  | some b => some b.mapSpans

/-- The expressions, each with its spans mapped by `f`. -/
def expressionsMapSpans : List Expression → List Expression
  | [] => []
  | e :: es => e.mapSpans :: expressionsMapSpans es

/-- The fields, each with its spans mapped by `f`. -/
def fieldsMapSpans : List Field → List Field
  | [] => []
  | x :: xs => x.mapSpans :: fieldsMapSpans xs

/-- The items, each with its spans mapped by `f`. -/
def itemsMapSpans : List Item → List Item
  | [] => []
  | i :: is => i.mapSpans :: itemsMapSpans is

/-- The parameters, each with its spans mapped by `f`. -/
def parametersMapSpans : List Parameter → List Parameter
  | [] => []
  | p :: ps => p.mapSpans :: parametersMapSpans ps

end

@[simp] theorem expressionsMapSpans_eq_map (es : List Expression) :
    expressionsMapSpans f es = es.map (Expression.mapSpans f) := by
  induction es with
  | nil => rw [expressionsMapSpans, List.map_nil]
  | cons e es ih => rw [expressionsMapSpans, ih, List.map_cons]

@[simp] theorem fieldsMapSpans_eq_map (xs : List Field) :
    fieldsMapSpans f xs = xs.map (Field.mapSpans f) := by
  induction xs with
  | nil => rw [fieldsMapSpans, List.map_nil]
  | cons x xs ih => rw [fieldsMapSpans, ih, List.map_cons]

@[simp] theorem itemsMapSpans_eq_map (is : List Item) :
    itemsMapSpans f is = is.map (Item.mapSpans f) := by
  induction is with
  | nil => rw [itemsMapSpans, List.map_nil]
  | cons i is ih => rw [itemsMapSpans, ih, List.map_cons]

@[simp] theorem parametersMapSpans_eq_map (ps : List Parameter) :
    parametersMapSpans f ps = ps.map (Parameter.mapSpans f) := by
  induction ps with
  | nil => rw [parametersMapSpans, List.map_nil]
  | cons p ps ih => rw [parametersMapSpans, ih, List.map_cons]

@[simp] theorem bindingMapSpans_eq_map (b : Option Binding) :
    bindingMapSpans f b = b.map (Binding.mapSpans f) := by
  cases b <;> rw [bindingMapSpans] <;> rfl

/-! ## Programs -/

/-- The element of a program with every span in it mapped by `f`. -/
def Element.mapSpans : Element → Element
  | .item i => .item (i.mapSpans f)
  | .docComment d => .docComment (d.mapSpans f)

/-- **The program with other spans.** -/
def Program.mapSpans (p : Program) : Program :=
  { elements := p.elements.map (Element.mapSpans f), span := p.span.bind f }

/-- No span at all. -/
def noSpan (_ : Span) : Option Span := none

@[simp] theorem noSpan_eq (span : Span) : noSpan span = none := rfl

/-- Once its span is dropped, a part has none. -/
@[simp] theorem bind_noSpan (span : Option Span) : span.bind noSpan = none := by
  cases span <;> rfl

/-- The program without spans. -/
def Program.eraseSpans (p : Program) : Program := p.mapSpans noSpan

/-! ## The program with its own spans -/

/-- A span mapped to itself stays. -/
@[simp] theorem bind_some_self (span : Option Span) : span.bind some = span := by
  cases span <;> rfl

@[simp] theorem TypeAscription.mapSpans_some (a : TypeAscription) : a.mapSpans some = a := by
  simp [mapSpans]

@[simp] theorem TypedName.mapSpans_some (n : TypedName) : n.mapSpans some = n := by
  obtain ⟨name, ascription, span⟩ := n
  cases ascription <;> simp [mapSpans]

@[simp] theorem Generics.mapSpans_some (g : Generics) : g.mapSpans some = g := by
  simp [mapSpans]

@[simp] theorem Path.mapSpans_some (p : Path) : p.mapSpans some = p := by
  simp [mapSpans]

@[simp] theorem DocComment.mapSpans_some (d : DocComment) : d.mapSpans some = d := by
  simp [mapSpans]

@[simp] theorem Callee.mapSpans_some (c : Callee) : c.mapSpans some = c := by
  cases c <;> simp [mapSpans]

mutual

/-- An expression whose spans are mapped to themselves stays as it is. -/
theorem Expression.mapSpans_some : ∀ e : Expression, e.mapSpans some = e
  | .binary left operator right span => by
    simp [Expression.mapSpans, left.mapSpans_some, right.mapSpans_some]
  | .call c => by rw [Expression.mapSpans, c.mapSpans_some]
  | .operand v => by rw [Expression.mapSpans, v.mapSpans_some]

theorem Call.mapSpans_some : ∀ c : Call, c.mapSpans some = c
  | ⟨callee, arguments, span⟩ => by
    rw [Call.mapSpans, expressionsMapSpans_some arguments, Callee.mapSpans_some, bind_some_self]

theorem Operand.mapSpans_some : ∀ v : Operand, v.mapSpans some = v
  | .literal v => by rw [Operand.mapSpans, v.mapSpans_some]
  | .path p => by rw [Operand.mapSpans, p.mapSpans_some]
  | .block b => by rw [Operand.mapSpans, b.mapSpans_some]
  | .group inner => by rw [Operand.mapSpans, inner.mapSpans_some]

theorem Block.mapSpans_some : ∀ b : Block, b.mapSpans some = b
  | ⟨items, span⟩ => by rw [Block.mapSpans, itemsMapSpans_some items, bind_some_self]

theorem Literal.mapSpans_some : ∀ v : Literal, v.mapSpans some = v
  | .array elements span => by
    rw [Literal.mapSpans, expressionsMapSpans_some elements, bind_some_self]
  | .object fields span => by rw [Literal.mapSpans, fieldsMapSpans_some fields, bind_some_self]
  | .tuple elements span => by
    rw [Literal.mapSpans, expressionsMapSpans_some elements, bind_some_self]
  | .string content span => by rw [Literal.mapSpans, bind_some_self]
  | .int text base span => by rw [Literal.mapSpans, bind_some_self]
  | .float value span => by rw [Literal.mapSpans, bind_some_self]
  | .boolean value span => by rw [Literal.mapSpans, bind_some_self]

theorem Field.mapSpans_some : ∀ x : Field, x.mapSpans some = x
  | ⟨key, value, span⟩ => by
    rw [Field.mapSpans, key.mapSpans_some, value.mapSpans_some, bind_some_self]

theorem Item.mapSpans_some : ∀ i : Item, i.mapSpans some = i
  | .statement s => by rw [Item.mapSpans, s.mapSpans_some]
  | .expression e => by rw [Item.mapSpans, e.mapSpans_some]

theorem Statement.mapSpans_some : ∀ s : Statement, s.mapSpans some = s
  | .assignment target value span => by
    rw [Statement.mapSpans, target.mapSpans_some, value.mapSpans_some, bind_some_self]
  | .definition d => by rw [Statement.mapSpans, d.mapSpans_some]

/-- A definition whose spans are mapped to themselves stays, its optional parts included. -/
theorem Definition.mapSpans_some : ∀ d : Definition, d.mapSpans some = d
  | ⟨keyword, name, generics, parameters, binding, span⟩ => by
    have hgenerics : generics.map (Generics.mapSpans some) = generics := by
      cases generics <;> simp
    rw [Definition.mapSpans, name.mapSpans_some, hgenerics, parametersMapSpans_some parameters,
      bindingMapSpans_some binding, bind_some_self]

theorem Parameter.mapSpans_some : ∀ p : Parameter, p.mapSpans some = p
  | .named name => by rw [Parameter.mapSpans, name.mapSpans_some]
  | .pattern v => by rw [Parameter.mapSpans, v.mapSpans_some]

theorem Binding.mapSpans_some : ∀ b : Binding, b.mapSpans some = b
  | ⟨body, span⟩ => by rw [Binding.mapSpans, body.mapSpans_some, bind_some_self]

theorem bindingMapSpans_some : ∀ b : Option Binding, bindingMapSpans some b = b
  | none => by rw [bindingMapSpans]
  | some b => by rw [bindingMapSpans, b.mapSpans_some]

/-- A list of expressions whose spans are mapped to themselves stays. -/
theorem expressionsMapSpans_some : ∀ es : List Expression, expressionsMapSpans some es = es
  | [] => by rw [expressionsMapSpans]
  | e :: es => by rw [expressionsMapSpans, e.mapSpans_some, expressionsMapSpans_some es]

theorem fieldsMapSpans_some : ∀ xs : List Field, fieldsMapSpans some xs = xs
  | [] => by rw [fieldsMapSpans]
  | x :: xs => by rw [fieldsMapSpans, x.mapSpans_some, fieldsMapSpans_some xs]

theorem itemsMapSpans_some : ∀ is : List Item, itemsMapSpans some is = is
  | [] => by rw [itemsMapSpans]
  | i :: is => by rw [itemsMapSpans, i.mapSpans_some, itemsMapSpans_some is]

theorem parametersMapSpans_some : ∀ ps : List Parameter, parametersMapSpans some ps = ps
  | [] => by rw [parametersMapSpans]
  | p :: ps => by rw [parametersMapSpans, p.mapSpans_some, parametersMapSpans_some ps]

end

/-- **An element with its own spans is itself.** -/
theorem Element.mapSpans_some (e : Element) : e.mapSpans some = e := by
  cases e with
  | item i => rw [mapSpans, i.mapSpans_some]
  | docComment d => rw [mapSpans, d.mapSpans_some]

end Chainlet
