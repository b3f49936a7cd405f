import Chainlet.Proofs.Code.Units
import Chainlet.Proofs.Program.Erasure

/-!
# Proofs/Code/Erased — the code of a program depends on its erasure only

The code of every part of a program is that of the part erased: most of what is left out is never looked
at, and a group has the code of what is in it.  That a group may be left out at the head of a chain, where
it turns one chain inside another into a single longer one, is `Expression.code_binary`: the code of a
chain is made of the code of its left operand, whatever that is.  So **programs of equal erasure have
equal modules, or the same refusal** (`Program.module_eq_of_erase`).
-/

namespace Chainlet

variable (o : Options)

/-! ## Groups -/

/-- An operand has the same code as an expression. -/
@[simp] theorem Operand.code_asExpression (value : Operand) :
    value.asExpression.code o = value.code o := by
  cases value with
  | group inner => rw [asExpression, Operand.code, codeBefore_nil]
  | literal | path | block => exact Expression.code_operand o _

/-- An expression has the same code as an operand, for parentheses add none. -/
@[simp] theorem Expression.code_asOperand (e : Expression) : e.asOperand.code o = e.code o := by
  cases e with
  | operand value => exact (Expression.code_operand o value).symm
  | binary | call =>
    change (Operand.group _).code o = _
    rw [Operand.code, codeBefore_nil]

/-! ## Names -/

/-- A path without its span is flattened to the same name. -/
@[simp] theorem Path.flatten_erase (p : Path) : p.erase.flatten = p.flatten := rfl

@[simp] theorem Callee.target_erase (c : Callee) : c.erase.target o = c.target o := by
  cases c <;> rfl

/-- The type of a key decides how its value is stored, and is kept. -/
@[simp] theorem TypedName.storage_eraseKey (n : TypedName) : n.eraseKey.storage = n.storage := by
  obtain ⟨name, ascription, span⟩ := n
  cases ascription with
  | none => rfl
  | some a =>
    by_cases ha : a.typeName = "f32"
    · simp [eraseKey, storage, typeHint, ha]
    · simp [eraseKey, storage, typeHint, NumberType.ofTypeName, NumberType.label, ha]

@[simp] theorem Parameter.name?_erase (p : Parameter) : p.erase.name? = p.name? := by
  cases p <;> rfl

theorem Parameter.name?_comp_erase : name? ∘ erase = name? := funext name?_erase

/-! ## Expressions and items -/

/-- A list of expressions keeps its length. -/
theorem length_eraseExpressions (es : List Expression) : (eraseExpressions es).length = es.length := by
  induction es with
  | nil => rw [eraseExpressions]
  | cons e es ih => rw [eraseExpressions, List.length_cons, ih, List.length_cons]

theorem eraseFields_eq_map (fs : List Field) : eraseFields fs = fs.map Field.erase := by
  induction fs with
  | nil => rw [eraseFields, List.map_nil]
  | cons f fs ih => rw [eraseFields, ih, List.map_cons]

/-- The fields of an object take as much memory as before. -/
theorem objectSize_eraseFields (fs : List Field) : objectSize (eraseFields fs) = objectSize fs := by
  rw [eraseFields_eq_map, objectSize, objectSize, List.foldl_map]

mutual

/-- The code of an expression depends on no spans, no types and no parentheses. -/
theorem Expression.code_erase : ∀ e : Expression, e.erase.code o = e.code o
  | .binary left operator right span => by
    rw [Expression.erase, Expression.code_binary, Expression.code_binary, left.code_erase,
      right.code_erase]
  | .call c => by
    rw [Expression.erase, Expression.code_call, Expression.code_call, c.code_erase]
  | .operand value => by
    rw [Expression.erase, Operand.code_asExpression, value.code_erase,
      Expression.code_operand]

theorem Call.code_erase : ∀ c : Call, c.erase.code o = c.code o
  | ⟨callee, arguments, span⟩ => by
    rw [Call.erase, Call.code, Call.code, argumentsCode_erase arguments, Callee.target_erase]

theorem Operand.code_erase : ∀ value : Operand, value.erase.code o = value.code o
  | .literal value => by rw [Operand.erase, Operand.code, Operand.code, value.code_erase]
  | .path p => by rw [Operand.erase, Operand.code, Operand.code, Path.flatten_erase]
  | .block b => by rw [Operand.erase, Operand.code, Operand.code, b.code_erase]
  | .group inner => by
    rw [Operand.erase, Expression.code_asOperand, inner.code_erase, Operand.code, codeBefore_nil]

theorem Block.code_erase : ∀ b : Block, b.erase.code o = b.code o
  | ⟨items, span⟩ => by rw [Block.erase, Block.code, Block.code, itemsCode_erase items]

theorem Literal.code_erase : ∀ value : Literal, value.erase.code o = value.code o
  | .array elements span => by
    rw [Literal.erase, Literal.code, Literal.code, elementsCode_erase elements,
      length_eraseExpressions]
  | .object fields span => by
    rw [Literal.erase, Literal.code, Literal.code, fieldsCode_erase fields, objectSize_eraseFields]
  | .tuple elements span => by rw [Literal.erase, Literal.code, Literal.code]
  | .string content span => by rw [Literal.erase, Literal.code, Literal.code]
  | .int text base span => by rw [Literal.erase, Literal.code, Literal.code]
  | .float value span => by rw [Literal.erase, Literal.code, Literal.code]
  | .boolean value span => by rw [Literal.erase, Literal.code, Literal.code]

theorem Item.code_erase : ∀ i : Item, i.erase.code o = i.code o
  | .expression e => by
    rw [Item.erase, Item.code, Item.code, codeBefore_nil, codeBefore_nil, e.code_erase]
  | .statement (.assignment target value span) => by
    rw [Item.erase, Statement.erase, Item.code, Item.code, codeBefore_nil, codeBefore_nil,
      value.code_erase, Path.flatten_erase]
  | .statement (.definition d) => by rw [Item.erase, Statement.erase, Item.code, Item.code]

theorem argumentsCode_erase : ∀ es : List Expression,
    argumentsCode o (eraseExpressions es) = argumentsCode o es
  | [] => by rw [eraseExpressions]
  | e :: es => by
    rw [eraseExpressions, argumentsCode, argumentsCode, codeBefore_nil, codeBefore_nil,
      e.code_erase, argumentsCode_erase es]

theorem elementsCode_erase : ∀ (es : List Expression) (offset : UInt32),
    elementsCode o offset (eraseExpressions es) = elementsCode o offset es
  | [], offset => by rw [eraseExpressions]
  | e :: es, offset => by
    rw [eraseExpressions, elementsCode, elementsCode, codeBefore_nil, codeBefore_nil, e.code_erase]
    simp only [elementsCode_erase es]

theorem fieldsCode_erase : ∀ (fs : List Field) (offset : UInt32),
    fieldsCode o offset (eraseFields fs) = fieldsCode o offset fs
  | [], offset => by rw [eraseFields]
  | ⟨key, e, span⟩ :: fs, offset => by
    rw [eraseFields, Field.erase, fieldsCode, fieldsCode, codeBefore_nil, codeBefore_nil,
      e.code_erase]
    simp only [fieldsCode_erase fs, TypedName.storage_eraseKey]

theorem itemsCode_erase : ∀ is : List Item, itemsCode o (eraseItems is) = itemsCode o is
  | [] => by rw [eraseItems]
  | i :: is => by rw [eraseItems, itemsCode, itemsCode, i.code_erase, itemsCode_erase is]

end

/-! ## Definitions and programs -/

/-- The scratch name depends on the names of the parameters, which are kept. -/
theorem Definition.scratch_erase (d : Definition) : d.erase.scratch o = d.scratch o := by
  obtain ⟨keyword, name, generics, parameters, binding, span⟩ := d
  rw [erase, scratch, scratch, parameterNames, parameterNames, List.filterMap_map,
    Parameter.name?_comp_erase]

/-- A definition keeps its name, the names of its parameters, and the code of its body. -/
theorem Definition.function_erase (d : Definition) : d.erase.function o = d.function o := by
  have hscratch := d.scratch_erase o
  obtain ⟨keyword, name, generics, parameters, binding, span⟩ := d
  rw [function_eq, function_eq, bodyCode, bodyCode, hscratch]
  simp only [erase, TypedName.eraseType, List.map_map, Parameter.name?_comp_erase]
  cases binding with
  | none => rw [eraseBinding]
  | some b =>
    obtain ⟨body, span⟩ := b
    simp only [eraseBinding, Operand.code_erase]

/-- An element that is not a comment has the unit of the element erased. -/
theorem Element.unit?_erase {e e' : Element} (h : e.erase? = some e') :
    e'.unit? o = e.unit? o := by
  match e with
  | .docComment d => cases h
  | .item (.expression value) =>
    cases h
    rw [Item.erase, unit?, unit?, ← Item.code_erase o (.expression value), Item.erase]
    · exact nofun
    · exact nofun
  | .item (.statement (.assignment target value span)) =>
    cases h
    rw [Item.erase, Statement.erase, unit?, unit?,
      ← Item.code_erase o (.statement (.assignment target value span)), Item.erase, Statement.erase]
    · exact nofun
    · exact nofun
  | .item (.statement (.definition d)) =>
    cases h
    rw [Item.erase, Statement.erase, unit?, unit?, d.function_erase]

/-- Elements without code may be left out. -/
theorem unitsOf_erase (es : List Element) :
    unitsOf o (es.filterMap Element.erase?) = unitsOf o es := by
  induction es with
  | nil => rfl
  | cons e es ih =>
    cases he : e.erase? with
    | some e' =>
      rw [List.filterMap_cons_some he, unitsOf, unitsOf, Element.unit?_erase o he, ih]
    | none =>
      -- a comment has no unit
      rw [List.filterMap_cons_none he, ih]
      cases e with
      | item i => cases he
      | docComment d =>
        rw [unitsOf, Element.unit?]
        cases unitsOf o es <;> rfl

/-- **A program has the module of its erasure**, or the same refusal. -/
theorem Program.module_erase (p : Program) : p.erase.module o = p.module o := by
  rw [Program.module, Program.module, erase, unitsOf_erase]

/-- **Programs of equal erasure have equal modules, or the same refusal.** -/
theorem Program.module_eq_of_erase {p q : Program} (h : p.erase = q.erase) :
    p.module o = q.module o := by
  rw [← module_erase, h, module_erase]

/-- `@fn f<T> a:u = (a + 1) * 2; x = (${k:f32 = "s"});` behind a comment. -/
def groupedProgram : Program where
  elements := [.docComment ⟨"doubled", none⟩,
    .item (.statement (.definition ⟨"@fn", ⟨"f", none, none⟩, some ⟨["T"], none⟩,
      [.named ⟨"a", some ⟨"u", none⟩, none⟩],
      some ⟨.group (.binary (.operand (.group (.binary (.operand (.path ⟨["a"], none⟩)) "+"
        (.literal (.int "1" .decimal none)) none))) "*" (.literal (.int "2" .decimal none)) none),
        none⟩, none⟩)),
    .item (.statement (.assignment ⟨["x"], none⟩ (.operand (.group (.operand (.literal (.object
      [⟨⟨"k", some ⟨"f32", none⟩, none⟩, .operand (.literal (.string "s" none)), none⟩] none)))))
      none))]

/-- `@let f a = a + 1 * 2; x = ${l:f32 = ""};`: a single chain in place of two. -/
def ungroupedProgram : Program where
  elements := [
    .item (.statement (.definition ⟨"@let", ⟨"f", none, none⟩, none, [.named ⟨"a", none, none⟩],
      some ⟨.group (.binary (.binary (.operand (.path ⟨["a"], none⟩)) "+"
        (.literal (.int "1" .decimal none)) none) "*" (.literal (.int "2" .decimal none)) none),
        none⟩, none⟩)),
    .item (.statement (.assignment ⟨["x"], none⟩ (.operand (.literal (.object
      [⟨⟨"l", some ⟨"f32", none⟩, none⟩, .operand (.literal (.string "" none)), none⟩] none)))
      none))]

theorem groupedProgram_module : groupedProgram.erase = ungroupedProgram.erase ∧
    groupedProgram.module {} = ungroupedProgram.module {} ∧
    ∃ m, ungroupedProgram.module {} = .ok m ∧ m.units.length = 2 :=
  ⟨rfl, Program.module_eq_of_erase {} rfl, _, rfl, rfl⟩

end Chainlet
