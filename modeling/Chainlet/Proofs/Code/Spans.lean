import Chainlet.Module.OfProgram
import Chainlet.Proofs.Program.Spans

/-!
# Proofs/Code/Spans — the code of a program does not look at spans

No part of the code of a program is made from the spans in it, so **a program with other spans has
the same units** (`Element.unit?_mapSpans`) or the same refusal.
-/

namespace Chainlet

variable (f : Span → Option Span) (o : Options)

/-! ## Parts without code of their own -/

@[simp] theorem Path.flatten_mapSpans (p : Path) : (p.mapSpans f).flatten = p.flatten := rfl

@[simp] theorem Callee.target_mapSpans (c : Callee) : (c.mapSpans f).target o = c.target o := by
  cases c <;> rfl

@[simp] theorem TypedName.storage_mapSpans (n : TypedName) : (n.mapSpans f).storage = n.storage := by
  obtain ⟨name, ascription, span⟩ := n
  cases ascription <;> rfl

@[simp] theorem Parameter.name?_mapSpans (p : Parameter) : (p.mapSpans f).name? = p.name? := by
  cases p <;> simp [mapSpans, name?, TypedName.mapSpans]

/-! ## Expressions and items -/

mutual

/-- The code of an expression, and of what is pending behind it, depends on no spans. -/
theorem Expression.codeBefore_mapSpans : ∀ (e : Expression) (rest : List PendingOperand),
    (e.mapSpans f).codeBefore o rest = e.codeBefore o rest
  | .binary left operator right span, rest => by
    rw [Expression.mapSpans, Expression.codeBefore, Expression.codeBefore,
      Expression.codeBefore_mapSpans left, Operand.code_mapSpans right]
  | .call c, rest => by
    rw [Expression.mapSpans, Expression.codeBefore, Expression.codeBefore, Call.code_mapSpans c]
  | .operand v, rest => by
    rw [Expression.mapSpans, Expression.codeBefore, Expression.codeBefore, Operand.code_mapSpans v]

theorem Call.code_mapSpans : ∀ c : Call, (c.mapSpans f).code o = c.code o
  | ⟨callee, arguments, span⟩ => by
    rw [Call.mapSpans, Call.code, Call.code, argumentsCode_mapSpans arguments,
      Callee.target_mapSpans]

theorem Operand.code_mapSpans : ∀ v : Operand, (v.mapSpans f).code o = v.code o
  | .literal v => by rw [Operand.mapSpans, Operand.code, Operand.code, Literal.code_mapSpans v]
  | .path p => by rw [Operand.mapSpans, Operand.code, Operand.code, Path.flatten_mapSpans]
  | .block b => by rw [Operand.mapSpans, Operand.code, Operand.code, Block.code_mapSpans b]
  | .group inner => by
    rw [Operand.mapSpans, Operand.code, Operand.code, Expression.codeBefore_mapSpans inner]

theorem Block.code_mapSpans : ∀ b : Block, (b.mapSpans f).code o = b.code o
  | ⟨items, span⟩ => by rw [Block.mapSpans, Block.code, Block.code, itemsCode_mapSpans items]

/-- The code of a literal depends on no spans. -/
theorem Literal.code_mapSpans : ∀ v : Literal, (v.mapSpans f).code o = v.code o
  | .array elements span => by
    rw [Literal.mapSpans, Literal.code, Literal.code, elementsCode_mapSpans elements,
      expressionsMapSpans_eq_map, List.length_map]
  | .object fields span => by
    rw [Literal.mapSpans, Literal.code, Literal.code, fieldsCode_mapSpans fields,
      fieldsMapSpans_eq_map, objectSize, objectSize, List.foldl_map]
  | .tuple elements span => by rw [Literal.mapSpans, Literal.code, Literal.code]
  | .string content span => by rw [Literal.mapSpans, Literal.code, Literal.code]
  | .int text base span => by rw [Literal.mapSpans, Literal.code, Literal.code]
  | .float value span => by rw [Literal.mapSpans, Literal.code, Literal.code]
  | .boolean value span => by rw [Literal.mapSpans, Literal.code, Literal.code]

theorem Item.code_mapSpans : ∀ i : Item, (i.mapSpans f).code o = i.code o
  | .expression e => by
    rw [Item.mapSpans, Item.code, Item.code, Expression.codeBefore_mapSpans e]
  | .statement (.assignment target value span) => by
    rw [Item.mapSpans, Statement.mapSpans, Item.code, Item.code, Expression.codeBefore_mapSpans value,
      Path.flatten_mapSpans]
  | .statement (.definition d) => by
    rw [Item.mapSpans, Statement.mapSpans, Item.code, Item.code]

theorem argumentsCode_mapSpans : ∀ es : List Expression,
    argumentsCode o (expressionsMapSpans f es) = argumentsCode o es
  | [] => by rw [expressionsMapSpans]
  | e :: es => by
    rw [expressionsMapSpans, argumentsCode, argumentsCode, Expression.codeBefore_mapSpans e,
      argumentsCode_mapSpans es]

theorem elementsCode_mapSpans : ∀ (es : List Expression) (offset : UInt32),
    elementsCode o offset (expressionsMapSpans f es) = elementsCode o offset es
  | [], offset => by rw [expressionsMapSpans]
  | e :: es, offset => by
    rw [expressionsMapSpans, elementsCode, elementsCode, Expression.codeBefore_mapSpans e]
    simp only [elementsCode_mapSpans es]

theorem fieldsCode_mapSpans : ∀ (xs : List Field) (offset : UInt32),
    fieldsCode o offset (fieldsMapSpans f xs) = fieldsCode o offset xs
  | [], offset => by rw [fieldsMapSpans]
  | ⟨key, e, span⟩ :: xs, offset => by
    rw [fieldsMapSpans, Field.mapSpans, fieldsCode, fieldsCode, Expression.codeBefore_mapSpans e]
    simp only [fieldsCode_mapSpans xs, TypedName.storage_mapSpans]

theorem itemsCode_mapSpans : ∀ is : List Item, itemsCode o (itemsMapSpans f is) = itemsCode o is
  | [] => by rw [itemsMapSpans]
  | i :: is => by
    rw [itemsMapSpans, itemsCode, itemsCode, Item.code_mapSpans i, itemsCode_mapSpans is]

end

/-! ## Definitions and elements -/

/-- The function of a definition depends on no spans. -/
theorem Definition.function_mapSpans (d : Definition) : (d.mapSpans f).function o = d.function o := by
  obtain ⟨keyword, name, generics, parameters, binding, span⟩ := d
  have hnames : (parameters.map (Parameter.mapSpans f)).map Parameter.name?
      = parameters.map Parameter.name? := by
    rw [List.map_map]
    exact List.map_congr_left fun p _ => p.name?_mapSpans f
  have hscratch : (Definition.mapSpans f ⟨keyword, name, generics, parameters, binding, span⟩).scratch o
      = Definition.scratch o ⟨keyword, name, generics, parameters, binding, span⟩ := by
    simp only [mapSpans, scratch, parameterNames, parametersMapSpans_eq_map, List.filterMap_map]
    rw [show Parameter.name? ∘ Parameter.mapSpans f = Parameter.name? from
      funext fun p => p.name?_mapSpans f]
  rw [function, function, hscratch]
  simp only [mapSpans, parametersMapSpans_eq_map, bindingMapSpans_eq_map, hnames]
  cases binding with
  | none => rfl
  | some b =>
    obtain ⟨body, span⟩ := b
    simp only [Option.map_some, Binding.mapSpans, Operand.code_mapSpans]
    rfl

/-- **An element with other spans has the same unit**, or the same refusal. -/
theorem Element.unit?_mapSpans (e : Element) : (e.mapSpans f).unit? o = e.unit? o := by
  have hitem : ∀ i : Item, ((i.mapSpans f).code o >>= fun body => pure (some (ModuleUnit.code body)))
      = (i.code o >>= fun body => pure (some (ModuleUnit.code body))) := fun i => by
    rw [i.code_mapSpans]
  match e with
  | .docComment d => rfl
  | .item (.expression value) => exact hitem (.expression value)
  | .item (.statement (.assignment target value span)) =>
    exact hitem (.statement (.assignment target value span))
  | .item (.statement (.definition d)) =>
    rw [mapSpans, Item.mapSpans, Statement.mapSpans, unit?, unit?, d.function_mapSpans]

/-- The units of a program depend on no spans. -/
theorem unitsOf_mapSpans (es : List Element) :
    unitsOf o (es.map (Element.mapSpans f)) = unitsOf o es := by
  induction es with
  | nil => rfl
  | cons e es ih => rw [List.map_cons, unitsOf, unitsOf, e.unit?_mapSpans, ih]

end Chainlet
