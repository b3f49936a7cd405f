import Chainlet.Proofs.Code.Chain

/-!
# Proofs/Code/Draft — code before the options have named anything in it

A `Draft` is a piece of code with the names left open that come from the options: the allocator and the
local of a composite literal, and the module of a builtin function.  `Draft.fill` puts the names of some
options in, and no other instruction asks for them.  What decides about the rest of the code, whether it
pushes a float and whether it assigns the local of the options, is the same for all options
(`pushesFloat_fillAll`, `writesLocal_fillAll`).  So **every expression has a draft, or is refused for one
reason whatever the options are** (`Expression.drafted`).
-/

namespace Chainlet

/-! ## Drafts -/

/-- A piece of code with the names of the options left open. -/
inductive Draft where
  | i32Const (value : UInt32)
  | f32Const (value : Binary32)
  | arithmetic (type : NumberType) (operation : Arithmetic)
  | globalGet (name : String)
  | globalSet (name : String)
  | userCall (name : String)
  /-- The call of a builtin function, whose module is left open. -/
  | builtinCall (name : String)
  | block (body : List Draft)
  /-- The store of a value behind the address in the local, which is left open. -/
  | entry (value : List Draft) (type : NumberType) (offset : UInt32)
  /-- An array or object: the call of the allocator, which is left open and whose result is kept in the
  local, then the entries, and behind an array its length. -/
  | composite (words : UInt32) (entries : List Draft) (length : Option UInt32)

/-- The name of a builtin function, in its module if there is one. -/
def Options.builtinName (o : Options) (name : String) : String :=
  match o.builtinNamespace with
  | some outer => outer ++ "." ++ name
  | none => name

namespace Draft

mutual

/-- The code of a draft with the names of some options. -/
def fill (o : Options) : Draft → List Instr
  | i32Const value => [.i32Const value]
  | f32Const value => [.f32Const value]
  | arithmetic type operation => [.arithmetic type operation]
  | globalGet name => [.globalGet name]
  | globalSet name => [.globalSet name]
  | userCall name => [.call name]
  | builtinCall name => [.call (o.builtinName name)]
  | block body => [.block (fillAll o body)]
  | entry value type offset => .localGet o.scratch :: fillAll o value ++ [.store type offset]
  | composite words entries length =>
    [.i32Const words, .call o.allocator, .localTee o.scratch] ++ fillAll o entries ++
      length.toList.map .i32Const

/-- The code of drafts one after the other. -/
def fillAll (o : Options) : List Draft → List Instr
  | [] => []
  | d :: ds => d.fill o ++ fillAll o ds

end

variable (o o' : Options)

@[simp] theorem fillAll_nil : fillAll o [] = [] := by rw [fillAll]

theorem fillAll_singleton (d : Draft) : fillAll o [d] = d.fill o := by
  rw [fillAll, fillAll_nil, List.append_nil]

@[simp] theorem fillAll_append (a b : List Draft) :
    fillAll o (a ++ b) = fillAll o a ++ fillAll o b := by
  induction a with
  | nil => simp
  | cons d ds ih => rw [List.cons_append, fillAll, fillAll, ih, List.append_assoc]

/-! ## What the options do not decide -/

mutual

theorem pushesFloat_fill : ∀ d : Draft,
    Instr.pushesFloat (d.fill o) = Instr.pushesFloat (d.fill o')
  | i32Const _ | f32Const _ | arithmetic .. | globalGet _ | globalSet _ | userCall _ => by
    simp only [fill]
  | builtinCall name => by simp only [fill, Instr.pushesFloat, Instr.hasFloat]
  | block body => by
    simp only [fill, Instr.pushesFloat, Instr.hasFloat, pushesFloat_fillAll body]
  | entry value type offset => by
    simp only [fill, Instr.pushesFloat, Instr.hasFloat, Instr.pushesFloat_append, List.cons_append,
      pushesFloat_fillAll value]
  | composite words entries length => by
    simp only [fill, Instr.pushesFloat, Instr.hasFloat, Instr.pushesFloat_append,
      pushesFloat_fillAll entries]

/-- **Whether code pushes a float is the same for all options.** -/
theorem pushesFloat_fillAll : ∀ ds : List Draft,
    Instr.pushesFloat (fillAll o ds) = Instr.pushesFloat (fillAll o' ds)
  | [] => by rw [fillAll_nil, fillAll_nil]
  | d :: ds => by
    rw [fillAll, fillAll, Instr.pushesFloat_append, Instr.pushesFloat_append, pushesFloat_fill d,
      pushesFloat_fillAll ds]

end

mutual

theorem writesLocal_fill : ∀ d : Draft,
    Instr.writesLocal o.scratch (d.fill o) = Instr.writesLocal o'.scratch (d.fill o')
  | i32Const _ | f32Const _ | arithmetic .. | globalGet _ | globalSet _ | userCall _
  | builtinCall _ => by simp only [fill, Instr.writesLocal, Instr.assigns]
  | block body => by
    simp only [fill, Instr.writesLocal, Instr.assigns, writesLocal_fillAll body]
  | entry value type offset => by
    simp only [fill, Instr.writesLocal, Instr.assigns, Instr.writesLocal_append, List.cons_append,
      writesLocal_fillAll value]
  | composite words entries length => by
    simp only [fill, Instr.writesLocal, Instr.assigns, Instr.writesLocal_append, beq_self_eq_true,
      Bool.true_or, Bool.or_true]

/-- **Whether code assigns the local of the options is the same for all options.** -/
theorem writesLocal_fillAll : ∀ ds : List Draft,
    Instr.writesLocal o.scratch (fillAll o ds) = Instr.writesLocal o'.scratch (fillAll o' ds)
  | [] => by rw [fillAll_nil, fillAll_nil]; rfl
  | d :: ds => by
    rw [fillAll, fillAll, Instr.writesLocal_append, Instr.writesLocal_append, writesLocal_fill d,
      writesLocal_fillAll ds]

end

end Draft

/-! ## Results for all options -/

/-- What is made with options, if it is refused for one reason whatever they are, or is always one
thing filled in. -/
def Uniform {α β : Type} (fill : Options → α → β) (x : Options → Coded β) : Prop :=
  (∃ refusal, ∀ o, x o = .error refusal) ∨ ∃ a, ∀ o, x o = .ok (fill o a)

section Uniform

variable {α β γ δ : Type} {fill : Options → α → β} {fill' : Options → γ → δ}

theorem uniform_ok {x : Options → Coded β} (a : α) (h : ∀ o, x o = .ok (fill o a)) :
    Uniform fill x := .inr ⟨a, h⟩

theorem uniform_error {x : Options → Coded β} (refusal : Refusal) (h : ∀ o, x o = .error refusal) :
    Uniform fill x := .inl ⟨refusal, h⟩

theorem Uniform.bind {x : Options → Coded β} {f : Options → β → Coded δ} (hx : Uniform fill x)
    (hf : ∀ a, Uniform fill' fun o => f o (fill o a)) : Uniform fill' fun o => x o >>= f o := by
  obtain ⟨refusal, hx⟩ | ⟨a, hx⟩ := hx
  · refine uniform_error refusal fun o => ?_
    rw [hx o]
    rfl
  · have hrun : (fun o => x o >>= f o) = fun o => f o (fill o a) := by
      funext o
      rw [hx o]
      rfl
    rw [hrun]
    exact hf a

end Uniform

/-- Code that has a draft, or is refused for one reason. -/
abbrev Drafted (x : Options → Coded (List Instr)) : Prop := Uniform Draft.fillAll x

/-- A piece of code of its own. -/
theorem drafted_of_fill {x : Options → Coded (List Instr)} (d : Draft)
    (h : ∀ o, x o = .ok (d.fill o)) : Drafted x :=
  uniform_ok [d] fun o => by rw [h, Draft.fillAll_singleton]

/-- A piece of code with others around it. -/
theorem Drafted.map {x : Options → Coded (List Instr)} {f : Options → List Instr → List Instr}
    (hx : Drafted x) (draft : List Draft → List Draft)
    (hf : ∀ o a, f o (Draft.fillAll o a) = Draft.fillAll o (draft a)) :
    Drafted fun o => (do pure (f o (← x o))) :=
  hx.bind fun a => uniform_ok (draft a) fun o => by rw [hf]; rfl

/-- Two pieces of code one after the other. -/
theorem Drafted.append {x y : Options → Coded (List Instr)} (hx : Drafted x) (hy : Drafted y) :
    Drafted fun o => (do return (← x o) ++ (← y o)) :=
  hx.bind fun a => hy.map (a ++ ·) fun o b => by rw [Draft.fillAll_append]

/-! ## The code of expressions -/

theorem operatorCode_drafted (operator : String) (a b : List Draft) :
    Drafted fun o => operatorCode operator (Draft.fillAll o a) (Draft.fillAll o b) := by
  cases hoperation : operation? operator with
  | none =>
    refine uniform_error (.unknownOperator operator) fun o => ?_
    rw [operatorCode, hoperation]
  | some operation =>
    -- the type of the operation is that for the default options, and so for all
    let float := Instr.pushesFloat (Draft.fillAll {} a) || Instr.pushesFloat (Draft.fillAll {} b)
    refine uniform_ok (a ++ b ++ [.arithmetic (if float then .f32 else .i32) operation])
      fun o => ?_
    rw [operatorCode, hoperation, Draft.fillAll_append, Draft.fillAll_append,
      Draft.fillAll_singleton, Draft.fill, Draft.pushesFloat_fillAll o {} a,
      Draft.pushesFloat_fillAll o {} b]

theorem storedCode_drafted (a : List Draft) :
    Drafted fun o => storedCode o (Draft.fillAll o a) := by
  cases hwrites : Instr.writesLocal ({} : Options).scratch (Draft.fillAll {} a) with
  | true =>
    refine uniform_error .nestedComposite fun o => ?_
    rw [storedCode, Draft.writesLocal_fillAll o {} a, hwrites]
    rfl
  | false =>
    refine uniform_ok a fun o => ?_
    rw [storedCode, Draft.writesLocal_fillAll o {} a, hwrites]
    rfl

/-- A value that is stored, with the entries behind it.  The type of the store may depend on the value. -/
theorem Drafted.entry {x y : Options → Coded (List Instr)} (hx : Drafted x) (hy : Drafted y)
    (type : List Instr → NumberType) (offset : UInt32)
    (htype : ∀ o o' a, type (Draft.fillAll o a) = type (Draft.fillAll o' a)) :
    Drafted fun o => (do
      let value ← storedCode o (← x o)
      let rest ← y o
      pure (.localGet o.scratch :: value ++ .store (type value) offset :: rest)) :=
  hx.bind fun a => (storedCode_drafted a).bind fun b =>
    hy.map (.entry b (type (Draft.fillAll {} b)) offset :: ·) fun o c => by
      rw [Draft.fillAll, Draft.fill, htype o {} b, List.append_assoc, List.singleton_append]

theorem storeType_fillAll (o o' : Options) (a : List Draft) :
    storeType (Draft.fillAll o a) = storeType (Draft.fillAll o' a) := by
  rw [storeType, storeType, Draft.pushesFloat_fillAll o o' a]

theorem Callee.drafted (c : Callee) : Drafted fun o => pure [.call (c.target o)] := by
  cases c with
  | builtin keyword =>
    obtain ⟨name, hname⟩ : ∃ name, ∀ o, Callee.target o (.builtin keyword) = o.builtinName name :=
      ⟨_, fun _ => rfl⟩
    exact drafted_of_fill (.builtinCall name) fun o => by rw [hname, Draft.fill]; rfl
  | user path => exact drafted_of_fill (.userCall path.flatten) fun o => by rw [Draft.fill]; rfl

mutual

/-- **An expression has a draft, or is refused for one reason whatever the options are.** -/
theorem Expression.drafted : ∀ e : Expression, Drafted fun o => e.code o
  | .binary left operator right span => by
    simp only [Expression.code_binary]
    exact left.drafted.bind fun a => right.drafted.bind fun b => operatorCode_drafted operator a b
  | .call c => by
    simp only [Expression.code_call]
    exact c.drafted
  | .operand value => by
    simp only [Expression.code_operand]
    exact value.drafted

theorem Call.drafted : ∀ c : Call, Drafted fun o => c.code o
  | ⟨callee, arguments, span⟩ => by
    simp only [Call.code]
    exact (arguments_drafted arguments).append callee.drafted

theorem Operand.drafted : ∀ value : Operand, Drafted fun o => value.code o
  | .literal value => by
    simp only [Operand.code]
    exact value.drafted
  | .path p => drafted_of_fill (.globalGet p.flatten) fun o => by
    rw [Operand.code, Draft.fill]
    rfl
  | .block b => by
    simp only [Operand.code]
    exact b.drafted
  | .group inner => by
    simp only [Operand.code]
    exact inner.drafted

theorem Block.drafted : ∀ b : Block, Drafted fun o => b.code o
  | ⟨items, span⟩ => by
    simp only [Block.code]
    exact (items_drafted items).map (fun a => [.block a]) fun o a => by
      rw [Draft.fillAll_singleton, Draft.fill]

theorem Literal.drafted : ∀ value : Literal, Drafted fun o => value.code o
  | .int text base span => by
    cases hvalue : intValue? base text with
    | none => exact uniform_error (.invalidInteger text) fun o => by rw [Literal.code, hvalue]; rfl
    | some w =>
      exact drafted_of_fill (.i32Const w) fun o => by rw [Literal.code, hvalue, Draft.fill]; rfl
  | .float value span => drafted_of_fill (.f32Const value) fun o => by
    rw [Literal.code, Draft.fill]
    rfl
  | .boolean value span => drafted_of_fill (.i32Const (if value then 1 else 0)) fun o => by
    rw [Literal.code, Draft.fill]
    rfl
  | .string content span => drafted_of_fill (.i32Const 0) fun o => by
    rw [Literal.code, Draft.fill]
    rfl
  | .array elements span => by
    cases hcount : word? elements.length with
    | none => exact uniform_error .arrayTooLong fun o => by rw [Literal.code, hcount]; rfl
    | some count =>
      simp only [Literal.code, hcount]
      exact (elements_drafted 0 elements).map (fun a => [.composite count a (some count)])
        fun o a => by rw [Draft.fillAll_singleton, Draft.fill]; rfl
  | .object fields span => by
    simp only [Literal.code]
    exact (fields_drafted 0 fields).map
      (fun a => [.composite (objectSize fields / wordSize) a none])
      fun o a => by rw [Draft.fillAll_singleton, Draft.fill]; simp [allocation]
  | .tuple elements span => uniform_error .tupleLiteral fun o => by rw [Literal.code]; rfl

theorem Item.drafted : ∀ i : Item, Drafted fun o => i.code o
  | .expression e => by
    simp only [Item.code]
    exact e.drafted
  | .statement (.assignment target value span) => by
    simp only [Item.code]
    exact value.drafted.map (· ++ [.globalSet target.flatten]) fun o a => by
      rw [Draft.fillAll_append, Draft.fillAll_singleton, Draft.fill]
  | .statement (.definition d) => uniform_error .nestedDefinition fun o => by rw [Item.code]; rfl

theorem arguments_drafted : ∀ es : List Expression, Drafted fun o => argumentsCode o es
  | [] => uniform_ok [] fun o => by rw [argumentsCode, Draft.fillAll_nil]; rfl
  | e :: es => by
    simp only [argumentsCode]
    exact e.drafted.append (arguments_drafted es)

theorem elements_drafted (offset : UInt32) :
    ∀ es : List Expression, Drafted fun o => elementsCode o offset es
  | [] => uniform_ok [] fun o => by rw [elementsCode, Draft.fillAll_nil]; rfl
  | e :: es => by
    simp only [elementsCode]
    exact e.drafted.entry (elements_drafted (offset + wordSize) es) storeType offset
      storeType_fillAll

theorem fields_drafted (offset : UInt32) :
    ∀ fs : List Field, Drafted fun o => fieldsCode o offset fs
  | [] => uniform_ok [] fun o => by rw [fieldsCode, Draft.fillAll_nil]; rfl
  | ⟨key, e, span⟩ :: fs => by
    simp only [fieldsCode]
    exact e.drafted.entry (fields_drafted (offset + wordSize) fs) (fun _ => key.storage) offset
      fun _ _ _ => rfl

theorem items_drafted : ∀ is : List Item, Drafted fun o => itemsCode o is
  | [] => uniform_ok [] fun o => by rw [itemsCode, Draft.fillAll_nil]; rfl
  | i :: is => by
    simp only [itemsCode]
    exact i.drafted.append (items_drafted is)

end

end Chainlet
