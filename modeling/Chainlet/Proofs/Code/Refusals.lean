import Chainlet.Proofs.Code.Scratch
import Chainlet.Proofs.Meaning.Basic
import Chainlet.Proofs.Program.Integer

/-!
# Proofs/Code/Refusals — which programs have a module

A program has a module exactly when everything that occurs in it is supported
(`Program.module_judged`): its operators are those of arithmetic, its integers fit in a word, there is
no tuple and no definition in a block, and no array or object stands inside an entry of another one.  A
refusal names something that occurs in the program and is not supported.

The generator refuses a literal inside a literal for the instructions of its code.  That this is the same
as an occurrence in the program is `Emits.writesLocal_eq`.
-/

namespace Chainlet

/-! ## What is supported -/

/-- Whether a construct can be compiled where it stands. -/
def Construct.IsSupported : Construct → Prop
  | operator text => text ∈ ["+", "-", "*", "/"]
  | literal (.int text base _) =>
    ∃ n, WritesNumber base.radix ((base.digits text).toList.filter (· != '_')) n ∧ n < UInt32.size
  | literal (.tuple ..) => False
  | literal (.array elements _) => ∀ c ∈ elements.flatMap Expression.constructs, c.isComposite = false
  | literal (.object fields _) =>
    ∀ c ∈ (fields.map Field.value).flatMap Expression.constructs, c.isComposite = false
  | literal _ => True
  | assignment _ => True
  | nestedDefinition => False

/-- The kind and the detail of the refusal of a construct. -/
def Construct.report? : Construct → Option (RefusalKind × String)
  | operator text => some (.unsupportedOperator, text)
  | literal (.int text _ _) => some (.invalidLiteral, text)
  | literal (.tuple ..) => some (.unsupported, "tuple literal")
  | literal (.array ..) | literal (.object ..) => some (.unsupported, "nested composite literal")
  | literal _ => none
  | assignment _ => none
  | nestedDefinition => some (.unsupported, "nested definition")

/-- A refusal is for a construct that is not supported, and says so. -/
def Refusal.Blames (r : Refusal) (c : Construct) : Prop :=
  ¬c.IsSupported ∧ c.report? = some (r.kind, r.detail)

/-- What may occur in an entry of an array or object. -/
def Construct.IsStorable (c : Construct) : Prop := c.IsSupported ∧ c.isComposite = false

/-- A refusal of an entry: for what occurs in it, or for being an array or object itself. -/
def Refusal.BlamesStored (r : Refusal) (c : Construct) : Prop :=
  r.Blames c ∨ r = .nestedComposite ∧ c.isComposite = true

/-- An array or object is supported when no other one occurs in its entries. -/
theorem Construct.isSupported_iff_of_isComposite {value : Literal} (h : value.isComposite = true) :
    (Construct.literal value).IsSupported
      ↔ ∀ c ∈ value.entries.flatMap Expression.constructs, c.isComposite = false := by
  cases value with
  | array | object => exact Iff.rfl
  | tuple | string | int | float | boolean => cases h

theorem Construct.report?_of_isComposite {c : Construct} (h : c.isComposite = true) :
    c.report? = some (.unsupported, "nested composite literal") := by
  cases c with
  | literal value =>
    cases value with
    | array | object => rfl
    | tuple | string | int | float | boolean => cases h
  | operator | assignment | nestedDefinition => cases h

/-- Four operators have an operation. -/
theorem isSome_operation?_iff {operator : String} :
    (operation? operator).isSome = true ↔ operator ∈ ["+", "-", "*", "/"] := by
  unfold operation?
  split <;> simp_all

/-! ## Verdicts

A step of the generator is judged against the constructs that it compiles: what it accepts is allowed,
and what it refuses is to blame for the refusal. -/

/-- A step that gives a result only if all its constructs are allowed, and is refused only for one of
them. -/
structure Judged (allowed : Construct → Prop) (blames : Refusal → Construct → Prop) {α : Type}
    (x : Coded α) (cs : List Construct) : Prop where
  allowed : ∀ a, x = .ok a → ∀ c ∈ cs, allowed c
  blamed : ∀ r, x = .error r → ∃ c ∈ cs, blames r c

section Judged

variable {α β : Type} {x : Coded α} {cs ds : List Construct} {allowed : Construct → Prop}
  {blames : Refusal → Construct → Prop}

/-- A result with no construct in it is judged rightly. -/
theorem judged_ok (a : α) : Judged allowed blames (Except.ok a : Coded α) [] :=
  ⟨fun _ _ _ hc => absurd hc List.not_mem_nil, fun _ h => by cases h⟩

theorem judged_ok_of {c : Construct} (h : allowed c) (a : α) :
    Judged allowed blames (Except.ok a : Coded α) [c] :=
  ⟨fun _ _ => List.forall_mem_singleton.2 h, fun _ h => by cases h⟩

/-- A refusal is judged rightly if a construct is to blame for it. -/
theorem judged_error {r : Refusal} {c : Construct} (hc : c ∈ cs) (h : blames r c) :
    Judged allowed blames (Except.error r : Coded α) cs :=
  ⟨fun _ h => (by cases h), fun _ heq => ⟨c, hc, by cases heq; exact h⟩⟩

/-- **One step after another**; the first of them that is refused decides. -/
theorem Judged.bind {f : α → Coded β} (hx : Judged allowed blames x cs)
    (hf : ∀ a, x = .ok a → Judged allowed blames (f a) ds) :
    Judged allowed blames (x >>= f) (cs ++ ds) := by
  cases x with
  | ok a =>
    refine ⟨fun b hb => List.forall_mem_append.2 ⟨hx.allowed a rfl, (hf a rfl).allowed b hb⟩,
      fun r hr => ?_⟩
    obtain ⟨c, hc, hblames⟩ := (hf a rfl).blamed r hr
    exact ⟨c, List.mem_append_right cs hc, hblames⟩
  | error r =>
    obtain ⟨c, hc, hblames⟩ := hx.blamed r rfl
    exact judged_error (List.mem_append_left ds hc) hblames

/-- A result that is changed afterwards is judged as before. -/
theorem Judged.map {f : α → β} (hx : Judged allowed blames x cs) :
    Judged allowed blames (x >>= fun a => pure (f a)) cs := by
  have h := hx.bind fun a _ => (judged_ok (f a) : Judged allowed blames _ [])
  rwa [List.append_nil] at h

end Judged

/-- A step against what is supported. -/
abbrev Supports {α : Type} (x : Coded α) (cs : List Construct) : Prop :=
  Judged Construct.IsSupported Refusal.Blames x cs

/-- A step inside an array or object against what may occur there. -/
abbrev SupportsStored {α : Type} (x : Coded α) (cs : List Construct) : Prop :=
  Judged Construct.IsStorable Refusal.BlamesStored x cs

variable {o : Options}

/-- A value that is stored: nothing in it is an array or object. -/
theorem Supports.stored {e : Expression} (h : Supports (e.code o) e.constructs) :
    SupportsStored (e.code o >>= storedCode o) e.constructs := by
  cases hcode : e.code o with
  | error r =>
    obtain ⟨c, hc, hblames⟩ := h.blamed r hcode
    exact judged_error hc (.inl hblames)
  | ok code =>
    have hwrites := (e.emits hcode).writesLocal_eq
    rw [ok_bind, storedCode, hwrites]
    cases hany : e.constructs.any Construct.isComposite with
    | true =>
      obtain ⟨c, hc, hcomposite⟩ := List.any_eq_true.1 hany
      exact judged_error hc (.inr ⟨rfl, hcomposite⟩)
    | false =>
      refine ⟨fun _ _ c hc => ⟨h.allowed code hcode c hc, ?_⟩, fun _ hr => by cases hr⟩
      exact Bool.eq_false_iff.2 (List.any_eq_false.1 hany c hc)

/-- An array or object around entries that may be stored. -/
theorem SupportsStored.composite {α : Type} {x : Coded α} {value : Literal}
    (hcomposite : value.isComposite = true)
    (h : SupportsStored x (value.entries.flatMap Expression.constructs)) :
    Supports x value.constructs := by
  rw [Literal.constructs_eq]
  refine ⟨fun a ha => List.forall_mem_cons.2 ⟨?_, fun c hc => (h.allowed a ha c hc).1⟩,
    fun r hr => ?_⟩
  · exact (Construct.isSupported_iff_of_isComposite hcomposite).2 fun c hc => (h.allowed a ha c hc).2
  · obtain ⟨c, hc, hblames | ⟨rfl, hinner⟩⟩ := h.blamed r hr
    · exact ⟨c, List.mem_cons_of_mem _ hc, hblames⟩
    · refine ⟨.literal value, List.mem_cons_self, fun hsupported => ?_,
        Construct.report?_of_isComposite hcomposite⟩
      have hnone := (Construct.isSupported_iff_of_isComposite hcomposite).1 hsupported c hc
      rw [hinner] at hnone
      cases hnone

/-- The operation of an operator. -/
theorem operatorCode_supports (operator : String) (left right : List Instr) :
    Supports (operatorCode operator left right) [.operator operator] := by
  unfold operatorCode
  cases hoperation : operation? operator with
  | some operation =>
    exact judged_ok_of (isSome_operation?_iff.1 (Option.isSome_of_eq_some hoperation)) _
  | none =>
    refine judged_error (List.mem_singleton.2 rfl) ⟨fun hmem => ?_, rfl⟩
    have hsome := isSome_operation?_iff.2 hmem
    rw [hoperation] at hsome
    cases hsome

/-! ## Expressions, items and literals -/

/-- No array or object has more elements than a word can count. -/
abbrev Countable (cs : List Construct) : Prop := ∀ c ∈ cs, c.stored.length < compositeLimit

/-- A literal whose code is a single constant. -/
theorem supports_constant (value : Literal) (hentries : value.entries = [])
    (h : (Construct.literal value).IsSupported) (code : List Instr) :
    Supports (Except.ok code) value.constructs := by
  rw [Literal.constructs_eq, hentries]
  exact judged_ok_of h code

mutual

/-- **An expression has code exactly when everything in it is supported.** -/
theorem Expression.supports : ∀ (e : Expression), Countable e.constructs →
    Supports (e.code o) e.constructs
  | .binary left operator right _, h => by
    rw [Expression.constructs, List.append_assoc] at h ⊢
    obtain ⟨hleft, h⟩ := List.forall_mem_append.1 h
    rw [Expression.code_binary]
    exact (left.supports hleft).bind fun l _ =>
      (right.supports (List.forall_mem_append.1 h).1).bind fun r _ => operatorCode_supports operator l r
  | .call c, h => by
    rw [Expression.constructs] at h ⊢
    rw [Expression.code_call]
    exact c.supports h
  | .operand value, h => by
    rw [Expression.constructs] at h ⊢
    rw [Expression.code_operand]
    exact value.supports h

/-- A call has code if its arguments have. -/
theorem Call.supports : ∀ (c : Call), Countable c.constructs → Supports (c.code o) c.constructs
  | ⟨callee, arguments, _⟩, h => by
    rw [Call.constructs] at h ⊢
    rw [Call.code]
    exact (arguments_support arguments h).map

/-- An operand has code if it is supported, or if its inside is. -/
theorem Operand.supports : ∀ (v : Operand), Countable v.constructs →
    Supports (v.code o) v.constructs
  | .literal value, h => by
    rw [Operand.constructs] at h ⊢
    rw [Operand.code]
    exact value.supports h
  | .path p, _ => by
    rw [Operand.constructs, Operand.code]
    exact judged_ok _
  | .block b, h => by
    rw [Operand.constructs] at h ⊢
    rw [Operand.code]
    exact b.supports h
  | .group inner, h => by
    rw [Operand.constructs] at h ⊢
    rw [Operand.code]
    exact inner.supports h

theorem Block.supports : ∀ (b : Block), Countable b.constructs → Supports (b.code o) b.constructs
  | ⟨items, _⟩, h => by
    rw [Block.constructs] at h ⊢
    rw [Block.code]
    exact (items_support items h).map

/-- A literal has code if it is no tuple, its number is read, and its elements can be stored. -/
theorem Literal.supports : ∀ (value : Literal), Countable value.constructs →
    Supports (value.code o) value.constructs
  | .array elements span, h => by
    rw [Literal.constructs_eq] at h
    obtain ⟨hlength, h⟩ := List.forall_mem_cons.1 h
    have hcount : word? elements.length = some (UInt32.ofNat elements.length) := word?_of_lt hlength
    rw [Literal.code, hcount]
    exact SupportsStored.composite rfl (elements_support elements 0 h).map
  | .object fields span, h => by
    rw [Literal.constructs_eq] at h
    obtain ⟨-, h⟩ := List.forall_mem_cons.1 h
    rw [Literal.code]
    exact SupportsStored.composite rfl (fields_support fields 0 h).map
  | .tuple elements span, _ => by
    rw [Literal.code, Literal.constructs_eq]
    exact judged_error List.mem_cons_self ⟨id, rfl⟩
  | .string content span, _ => by
    rw [Literal.code]
    exact supports_constant (.string content span) rfl trivial _
  | .float x span, _ => by
    rw [Literal.code]
    exact supports_constant (.float x span) rfl trivial _
  | .boolean b span, _ => by
    rw [Literal.code]
    exact supports_constant (.boolean b span) rfl trivial _
  | .int text base span, _ => by
    rw [Literal.code]
    cases hvalue : intValue? base text with
    | some value =>
      obtain ⟨n, hn, hlt, -⟩ := intValue?_eq_some_iff.1 hvalue
      exact supports_constant (.int text base span) rfl ⟨n, hn, hlt⟩ _
    | none =>
      rw [Literal.constructs_eq]
      refine judged_error List.mem_cons_self ⟨?_, rfl⟩
      rintro ⟨n, hn, hlt⟩
      rw [intValue?_eq_some_iff.2 ⟨n, hn, hlt, rfl⟩] at hvalue
      cases hvalue

/-- An item has code if its expression or its value has. -/
theorem Item.supports : ∀ (i : Item), Countable i.constructs → Supports (i.code o) i.constructs
  | .expression e, h => by
    rw [Item.constructs] at h ⊢
    rw [Item.code]
    exact e.supports h
  | .statement (.assignment target value _), h => by
    rw [Item.constructs] at h ⊢
    rw [Item.code]
    exact (value.supports (List.forall_mem_append.1 h).1).bind fun _ _ => judged_ok_of trivial _
  | .statement (.definition d), _ => by
    rw [Item.code, Item.constructs]
    exact judged_error List.mem_cons_self ⟨id, rfl⟩

theorem arguments_support : ∀ (es : List Expression), Countable (expressionsConstructs es) →
    Supports (argumentsCode o es) (expressionsConstructs es)
  | [], _ => by
    rw [argumentsCode, expressionsConstructs]
    exact judged_ok _
  | e :: es, h => by
    rw [expressionsConstructs] at h ⊢
    obtain ⟨hfirst, hrest⟩ := List.forall_mem_append.1 h
    rw [argumentsCode]
    exact (e.supports hfirst).bind fun _ _ => (arguments_support es hrest).map

/-- The elements of an array can be stored if each has code and none is composite. -/
theorem elements_support : ∀ (es : List Expression) (offset : UInt32),
    Countable (es.flatMap Expression.constructs) →
      SupportsStored (elementsCode o offset es) (es.flatMap Expression.constructs)
  | [], offset, _ => by
    rw [elementsCode]
    exact judged_ok _
  | e :: es, offset, h => by
    rw [List.flatMap_cons] at h ⊢
    obtain ⟨hfirst, hrest⟩ := List.forall_mem_append.1 h
    rw [elementsCode, ← bind_assoc]
    exact (e.supports hfirst).stored.bind fun _ _ =>
      (elements_support es (offset + wordSize) hrest).map

/-- The fields of an object can be stored if each value has code and none is composite. -/
theorem fields_support : ∀ (fs : List Field) (offset : UInt32),
    Countable ((fs.map Field.value).flatMap Expression.constructs) →
      SupportsStored (fieldsCode o offset fs) ((fs.map Field.value).flatMap Expression.constructs)
  | [], offset, _ => by
    rw [fieldsCode]
    exact judged_ok _
  | ⟨key, e, _⟩ :: fs, offset, h => by
    rw [List.map_cons, List.flatMap_cons] at h ⊢
    obtain ⟨hfirst, hrest⟩ := List.forall_mem_append.1 h
    rw [fieldsCode, ← bind_assoc]
    exact (e.supports hfirst).stored.bind fun _ _ =>
      (fields_support fs (offset + wordSize) hrest).map

theorem items_support : ∀ (is : List Item), Countable (itemsConstructs is) →
    Supports (itemsCode o is) (itemsConstructs is)
  | [], _ => by
    rw [itemsCode, itemsConstructs]
    exact judged_ok _
  | i :: is, h => by
    rw [itemsConstructs] at h ⊢
    obtain ⟨hfirst, hrest⟩ := List.forall_mem_append.1 h
    rw [itemsCode]
    exact (i.supports hfirst).bind fun _ _ => (items_support is hrest).map

end

/-! ## Programs -/

/-- A body has code if its expression has. -/
theorem Definition.bodyCode_supports {d : Definition} (h : Countable d.constructs) :
    Supports (d.bodyCode o) d.constructs := by
  obtain ⟨keyword, name, generics, parameters, binding, span⟩ := d
  rw [Definition.constructs] at h ⊢
  cases binding with
  | none =>
    rw [bindingConstructs]
    exact judged_ok _
  | some b =>
    obtain ⟨body, span⟩ := b
    rw [bindingConstructs] at h ⊢
    exact body.supports h

/-- An element has a unit if its code has one. -/
theorem Element.unit_supports {e : Element} (h : Countable e.constructs) :
    Supports (e.unit? o) e.constructs := by
  unfold Element.unit?
  split
  · exact judged_ok _
  · next d =>
    rw [Definition.function_eq]
    exact (Definition.bodyCode_supports h).map.map
  · next i hi =>
    rw [Element.constructs] at h ⊢
    · exact (i.supports h).map
    all_goals exact hi

/-- The units of a program are made if each of its elements is supported. -/
theorem unitsOf_supports {es : List Element} (h : Countable (es.flatMap Element.constructs)) :
    Supports (unitsOf o es) (es.flatMap Element.constructs) := by
  induction es with
  | nil => exact judged_ok _
  | cons e es ih =>
    rw [List.flatMap_cons] at h ⊢
    obtain ⟨hfirst, hrest⟩ := List.forall_mem_append.1 h
    exact (Element.unit_supports hfirst).bind fun _ _ => (ih hrest).map

/-- `$[{ a = &f ${x = 1}; a }]`: an object is assigned in a block inside an array. -/
def objectInArray : Program where
  elements := [.item (.expression (.operand (.literal (.array [.operand (.block ⟨[
    .statement (.assignment ⟨["a"], none⟩ (.call ⟨.user ⟨["f"], none⟩, [
      .operand (.literal (.object [⟨⟨"x", none, none⟩,
        .operand (.literal (.int "1" .decimal none)), none⟩] none))], none⟩) none),
    .expression (.operand (.path ⟨["a"], none⟩))], none⟩)] none))))]

end Chainlet
