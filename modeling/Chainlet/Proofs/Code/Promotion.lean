import Chainlet.Proofs.Code.Emits

/-!
# Proofs/Code/Promotion — which operations of a chain are those of floats

`Expression.recursiveCode` is the code of a chain by plain recursion: what stands before an operator,
the operand behind it, the operation.  The walk down the spine, with its running flag and its own piece
of code for every operand, computes the same code or the same refusal.

A piece of code has a float constant in it exactly when a float is written out in what it comes from
(`Emits.pushesFloat_eq`).  So **an operation is one of floats from the first operand on in which a float
is written out**, at any depth (`Expression.code_recursive`).
-/

namespace Chainlet

variable {o : Options} {cs : List Construct} {code : List Instr}

/-! ## Float constants -/

theorem pushesFloat_flatMap {α : Type} (f : α → List Instr) (l : List α) :
    Instr.pushesFloat (l.flatMap f) = l.any fun a => Instr.pushesFloat (f a) := by
  induction l with
  | nil => rfl
  | cons a l ih => rw [List.flatMap_cons, Instr.pushesFloat_append, ih, List.any_cons]

theorem pushesFloat_entry (scratch : String) (entry : StoredEntry) :
    Instr.pushesFloat (entry.code scratch) = Instr.pushesFloat entry.value := by
  rw [StoredEntry.code, List.cons_append, Instr.pushesFloat, Instr.pushesFloat_append]
  exact Bool.or_false _

/-- **Code has a float constant in it when a float is written out in what it comes from.** -/
theorem Emits.pushesFloat_eq (h : Emits o cs code) :
    Instr.pushesFloat code = cs.any Construct.isFloat := by
  induction h with
  | nil | float | path | call | operator | assignment => rfl
  | append _ _ ih ih' => rw [Instr.pushesFloat_append, ih, ih', List.any_append]
  | word _ hword _ => exact ((Bool.or_false _).trans hword).symm
  | block _ ih => rw [Instr.pushesFloat, Instr.hasFloat, ih]; exact Bool.or_false _
  | @composite value entries code stores _ ih =>
    obtain ⟨words, closing, rfl, hclosing⟩ := stores.shape
    have hnone : Instr.pushesFloat closing = false := by obtain rfl | ⟨count, rfl⟩ := hclosing <;> rfl
    have hvalue : Construct.isFloat (.literal value) = false := by
      have hcomposite := stores.isComposite
      cases value with
      | float => cases hcomposite
      | _ => rfl
    have hentries : (entries.any fun entry => Instr.pushesFloat (entry.code o.scratch))
        = entries.any fun entry => entry.source.constructs.any Construct.isFloat := by
      rw [Bool.eq_iff_iff, List.any_eq_true, List.any_eq_true]
      exact exists_congr fun entry => and_congr_right fun hmem => by
        rw [pushesFloat_entry, ih entry hmem]
    rw [Instr.pushesFloat_append, Instr.pushesFloat_append, hnone, Bool.or_false, pushesFloat_flatMap,
      hentries, stores.constructs_eq, List.any_cons, hvalue, List.any_flatMap]
    rfl

/-! ## Plain recursion -/

/-- The code of a chain by recursion on what stands before its last operator: that code, then the code
of the operand, then the operation, which is one of floats if either has a float constant in it. -/
def Expression.recursiveCode (o : Options) : Expression → Coded (List Instr)
  | .binary left operator right _ => do
    let l ← left.recursiveCode o
    let r ← right.code o
    match operation? operator with
    | some operation =>
      let float := Instr.pushesFloat l || Instr.pushesFloat r
      pure (l ++ r ++ [.arithmetic (if float then .f32 else .i32) operation])
    | none => throw (.unknownOperator operator)
  | .call c => c.code o
  | .operand value => value.code o

theorem Expression.code_eq_recursiveCode (o : Options) (e : Expression) :
    e.code o = e.recursiveCode o := by
  cases e with
  | binary left operator right span =>
    rw [code_binary, recursiveCode, code_eq_recursiveCode o left]
    rfl
  | call c => rw [code_call, recursiveCode]
  | operand value => rw [code_operand, recursiveCode]

/-! ## Chains -/

/-- What stands in front of the first operator of a chain. -/
def Expression.head : Expression → Expression
  | .binary left _ _ _ => left.head
  | e => e

/-- The operators of a chain from the left, each with the operand behind it. -/
def Expression.links : Expression → List (String × Operand)
  | .binary left operator right _ => left.links ++ [(operator, right)]
  | _ => []

/-- What occurs in the head of a chain and in its first operands. -/
def Expression.constructsUpTo (e : Expression) (count : Nat) : List Construct :=
  e.head.constructs ++ (e.links.take count).flatMap fun link => link.2.constructs

/-- The code of an operator in a chain: that of the operand behind it, and the operation. -/
structure LinkCode where
  operand : List Instr
  type : NumberType
  operation : Arithmetic

/-- The instructions of a link, in order. -/
def LinkCode.instructions (link : LinkCode) : List Instr :=
  link.operand ++ [.arithmetic link.type link.operation]

theorem any_isFloat_iff : cs.any Construct.isFloat = true ↔ ∃ x span, .literal (.float x span) ∈ cs := by
  rw [List.any_eq_true]
  constructor
  · rintro ⟨c, hmem, hfloat⟩
    obtain ⟨x, span, rfl⟩ := Construct.isFloat_iff.1 hfloat
    exact ⟨x, span, hmem⟩
  · rintro ⟨x, span, hmem⟩
    exact ⟨_, hmem, rfl⟩

/-- Operators are no floats: all floats of a chain are in its head and its operands. -/
theorem Expression.any_isFloat_constructs (e : Expression) : e.constructs.any Construct.isFloat
    = (e.constructsUpTo e.links.length).any Construct.isFloat := by
  rw [constructsUpTo, List.take_length]
  cases e with
  | binary left operator right span =>
    have ih := any_isFloat_constructs left
    rw [constructsUpTo, List.take_length] at ih
    rw [constructs, head, links, List.flatMap_append, List.flatMap_singleton, ← List.append_assoc,
      List.any_append, List.any_append, ih, @List.any_append _ _ (left.head.constructs ++ _)]
    exact Bool.or_false _
  | call c => exact congrArg (List.any · Construct.isFloat) (List.append_nil _).symm
  | operand value => exact congrArg (List.any · Construct.isFloat) (List.append_nil _).symm

theorem Expression.constructsUpTo_binary {left : Expression} {count : Nat}
    (h : count ≤ left.links.length) (operator : String) (right : Operand) (span : Option Span) :
    (Expression.binary left operator right span).constructsUpTo count = left.constructsUpTo count := by
  rw [constructsUpTo, constructsUpTo, head, links, List.take_append_of_le_length h]

/-- The code of a chain with its operators: `links` are the pieces behind the code of the head, and
the operation of one is of floats if a float is written out in the head or an operand up to its own. -/
structure ChainLinks (o : Options) (e : Expression) (front : List Instr) (links : List LinkCode)
    (code : List Instr) : Prop where
  head : e.head.code o = .ok front
  code_eq : code = front ++ links.flatMap LinkCode.instructions
  operands : List.Forall₂ (fun link source =>
    source.2.code o = .ok link.operand ∧ operation? source.1 = some link.operation) links e.links
  type_iff : ∀ k link, links[k]? = some link →
    (link.type = .f32 ↔ ∃ x span, .literal (.float x span) ∈ e.constructsUpTo (k + 1))

/-- A chain with only its head. -/
theorem ChainLinks.single {e : Expression} (hhead : e.head = e) (hlinks : e.links = [])
    (h : e.code o = .ok code) : ChainLinks o e code [] code where
  head := by rw [hhead, h]
  code_eq := (List.append_nil code).symm
  operands := by rw [hlinks]; exact .nil
  type_iff _ _ hlink := nomatch hlink

/-- One more operator, whose operand is the last one of the chain. -/
theorem ChainLinks.snoc {left : Expression} {operator : String} {right : Operand} {span : Option Span}
    {l r front : List Instr} {links : List LinkCode} {operation : Arithmetic}
    (h : ChainLinks o left front links l) (hr : right.code o = .ok r)
    (hoperation : operation? operator = some operation) {type : NumberType}
    (htype : type = .f32 ↔ ∃ x span', .literal (.float x span')
      ∈ (Expression.binary left operator right span).constructs) :
    ChainLinks o (.binary left operator right span) front (links ++ [⟨r, type, operation⟩])
      (l ++ r ++ [.arithmetic type operation]) where
  head := by rw [Expression.head]; exact h.head
  code_eq := by
    rw [List.flatMap_append, List.flatMap_singleton, ← List.append_assoc, ← h.code_eq,
      List.append_assoc]
    rfl
  operands := by
    rw [Expression.links]
    exact List.rel_append h.operands (.cons ⟨hr, hoperation⟩ .nil)
  type_iff k link hlink := by
    have hlength : links.length = left.links.length := h.operands.length_eq
    rw [List.getElem?_append] at hlink
    split at hlink
    · next hk =>
      rw [Expression.constructsUpTo_binary (by omega)]
      exact h.type_iff k link hlink
    · next hk =>
      obtain ⟨hlast, rfl⟩ : k - links.length = 0 ∧ ⟨r, type, operation⟩ = link := by
        cases hlast : k - links.length with
        | zero => rw [hlast] at hlink; exact ⟨rfl, Option.some.inj hlink⟩
        | succ n => rw [hlast] at hlink; cases hlink
      have hall : (Expression.binary left operator right span).links.length = k + 1 := by
        rw [Expression.links, List.length_append, List.length_singleton]
        omega
      rw [htype, ← any_isFloat_iff, ← any_isFloat_iff, Expression.any_isFloat_constructs, hall]

/-- **The operation of each operator is decided by the floats written out in front of it.** -/
theorem Expression.code_links (e : Expression) {code : List Instr} (h : e.code o = .ok code) :
    ∃ front links, ChainLinks o e front links code := by
  cases e with
  | binary left operator right span =>
    have hfloat := (Expression.emits _ h).pushesFloat_eq
    rw [code_binary] at h
    obtain ⟨l, hl, h⟩ := bind_eq_ok.1 h
    obtain ⟨r, hr, h⟩ := bind_eq_ok.1 h
    obtain ⟨front, links, hlinks⟩ := left.code_links hl
    unfold operatorCode at h
    split at h
    · next operation hoperation =>
      cases h
      refine ⟨front, _, hlinks.snoc hr hoperation ?_⟩
      -- the flag of the operands is that of the whole code, where the operation adds nothing
      rw [← any_isFloat_iff, ← hfloat, Instr.pushesFloat_append, Instr.pushesFloat_append]
      cases Instr.pushesFloat l || Instr.pushesFloat r <;> simp [Instr.pushesFloat, Instr.hasFloat]
    · cases h
  | call c => exact ⟨code, [], .single rfl rfl h⟩
  | operand value => exact ⟨code, [], .single rfl rfl h⟩

/-! ## Behind other code -/

theorem argumentsCode_concat (o : Options) (es : List Expression) (e : Expression) :
    argumentsCode o (es ++ [e]) = (do
      let out ← argumentsCode o es
      let code ← e.code o
      pure (out ++ code)) := by
  induction es with
  | nil => simp [argumentsCode, codeBefore_nil]
  | cons e' es ih =>
    rw [List.cons_append, argumentsCode, argumentsCode, ih]
    simp only [bind_assoc, pure_bind, List.append_assoc]

theorem itemsCode_concat (o : Options) (is : List Item) (i : Item) :
    itemsCode o (is ++ [i]) = (do
      let out ← itemsCode o is
      let code ← i.code o
      pure (out ++ code)) := by
  induction is with
  | nil => simp [itemsCode]
  | cons i' is ih =>
    rw [List.cons_append, itemsCode, itemsCode, ih]
    simp only [bind_assoc, pure_bind, List.append_assoc]

/-- **The code of a chain is that of plain recursion, and it turns to floats where one is written out.**
The code or the refusal of a chain is that of the recursion on what stands before its last operator;
behind code that is there already, in arguments and in blocks, it is put without a change to that code;
and if a chain has code, an operation of it is of floats exactly when a float is written out, at any
depth, in the head or in an operand up to its own. -/
theorem Expression.code_recursive (o : Options) (e : Expression) :
    e.code o = e.recursiveCode o ∧
    (∀ es : List Expression, argumentsCode o (es ++ [e]) = do
      let out ← argumentsCode o es
      let code ← e.recursiveCode o
      pure (out ++ code)) ∧
    (∀ is : List Item, itemsCode o (is ++ [.expression e]) = do
      let out ← itemsCode o is
      let code ← e.recursiveCode o
      pure (out ++ code)) ∧
    ∀ code, e.code o = .ok code → ∃ front links, ChainLinks o e front links code := by
  rw [← code_eq_recursiveCode]
  refine ⟨rfl, fun es => argumentsCode_concat o es e, fun is => ?_, fun _ => e.code_links⟩
  rw [itemsCode_concat, Item.code, codeBefore_nil]

/-- `1 + 2 + { x = &f 0.5; x } * 3` -/
def promotedChain : Expression :=
  .binary (.binary (.binary (.operand (.literal (.int "1" .decimal none))) "+"
    (.literal (.int "2" .decimal none)) none) "+"
    (.block ⟨[.statement (.assignment ⟨["x"], none⟩ (.call ⟨.user ⟨["f"], none⟩,
      [.operand (.literal (.float ⟨0x3F000000⟩ none))], none⟩) none),
      .expression (.operand (.path ⟨["x"], none⟩))], none⟩) none) "*"
    (.literal (.int "3" .decimal none)) none

/-- The first operation is one of words; the float in the argument of the call makes floats of the
other two. -/
theorem promotedChain_links : ∃ code front links, promotedChain.code {} = .ok code ∧
    ChainLinks {} promotedChain front links code ∧
    code = [.i32Const 1, .i32Const 2, .arithmetic .i32 .add,
      .block [.f32Const ⟨0x3F000000⟩, .call "f", .globalSet "x", .globalGet "x"],
      .arithmetic .f32 .add, .i32Const 3, .arithmetic .f32 .mul] := by
  have hcode : promotedChain.code {} = .ok _ := rfl
  obtain ⟨front, links, h⟩ := (Expression.code_recursive {} promotedChain).2.2.2 _ hcode
  exact ⟨_, front, links, hcode, h, rfl⟩

end Chainlet
