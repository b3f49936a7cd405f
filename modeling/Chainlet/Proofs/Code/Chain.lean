import Chainlet.Module.Code
import Chainlet.Proofs.Outcome

/-!
# Proofs/Code/Chain — the code of an operator chain, by recursion on its left operand

`Expression.codeBefore` walks down the left spine of a chain with the code of the right operands set
aside.  `code_binary` reads the result off the chain itself: the code of everything before the
operator, the code of its operand, and one operation, of floats as soon as either has a float
constant in it.
-/

namespace Chainlet

/-- The code of an operator behind the code of its two operands. -/
def operatorCode (operator : String) (left right : List Instr) : Coded (List Instr) :=
  match operation? operator with
  | some operation =>
    let float := Instr.pushesFloat left || Instr.pushesFloat right
    .ok (left ++ right ++ [.arithmetic (if float then .f32 else .i32) operation])
  | none => .error (.unknownOperator operator)

theorem codeBefore_nil (o : Options) (e : Expression) : e.codeBefore o [] = e.code o := rfl

/-- The code of a chain with the float flag it has reached. -/
def Expression.chainCode (o : Options) : Expression → Coded ChainCode
  | .binary left operator right _ => do
    (← left.chainCode o).extend ⟨operator, right.code o⟩
  | .call c => do pure (ChainCode.ofHead (← c.code o))
  | .operand value => do pure (ChainCode.ofHead (← value.code o))

/-- What the walk down a spine computes: the chain above it extended by the operands set aside. -/
theorem Expression.codeBefore_eq (o : Options) (e : Expression) (rest : List PendingOperand) :
    e.codeBefore o rest = (do
      let whole ← rest.foldlM ChainCode.extend (← e.chainCode o)
      pure whole.code.toList) := by
  match e with
  | .binary left operator right _ =>
    rw [codeBefore, codeBefore_eq o left, chainCode]
    simp only [List.foldlM_cons, bind_assoc]
  | .call c =>
    rw [codeBefore, chainCode]
    cases c.code o <;> rfl
  | .operand value =>
    rw [codeBefore, chainCode]
    cases value.code o <;> rfl

theorem Expression.code_eq_chainCode (o : Options) (e : Expression) :
    e.code o = (e.chainCode o).map fun c => c.code.toList := by
  rw [code, codeBefore_eq]
  cases e.chainCode o <;> rfl

@[simp] theorem Expression.code_operand (o : Options) (value : Operand) :
    (Expression.operand value).code o = value.code o := by
  rw [code_eq_chainCode, chainCode]
  cases value.code o <;> rfl

@[simp] theorem Expression.code_call (o : Options) (c : Call) :
    (Expression.call c).code o = c.code o := by
  rw [code_eq_chainCode, chainCode]
  cases c.code o <;> rfl

/-- Extending a chain puts the operand and then the operation behind its code. -/
theorem ChainCode.extend_eq {c : ChainCode} (h : c.float = Instr.pushesFloat c.code.toList)
    (operator : String) (right : Coded (List Instr)) :
    (c.extend ⟨operator, right⟩).map (fun c => c.code.toList)
      = right >>= operatorCode operator c.code.toList := by
  cases right with
  | error r => rfl
  | ok right =>
    simp only [extend, ok_bind, operatorCode]
    cases operation? operator with
    | none => rfl
    | some operation => simp [Except.map, h]

/-- The flag of a chain tells whether its code has a float constant. -/
theorem Expression.chainCode_float {o : Options} {e : Expression} {c : ChainCode}
    (h : e.chainCode o = .ok c) : c.float = Instr.pushesFloat c.code.toList := by
  match e with
  | .binary left operator right _ =>
    obtain ⟨l, hl, h⟩ := bind_eq_ok.1 h
    obtain ⟨r, hr, h⟩ := bind_eq_ok.1 h
    have ih := chainCode_float hl
    dsimp only at h
    split at h
    · cases h
      simp [ih, Instr.pushesFloat_append, Instr.pushesFloat, Instr.hasFloat]
    · cases h
  | .call _ =>
    obtain ⟨code, -, h⟩ := bind_eq_ok.1 h
    cases h
    simp [ChainCode.ofHead]
  | .operand _ =>
    obtain ⟨code, -, h⟩ := bind_eq_ok.1 h
    cases h
    simp [ChainCode.ofHead]

/-- **The code of a chain by recursion on its left operand.** -/
theorem Expression.code_binary (o : Options) (left : Expression) (operator : String)
    (right : Operand) (span : Option Span) :
    (Expression.binary left operator right span).code o = (do
      let l ← left.code o
      let r ← right.code o
      operatorCode operator l r) := by
  rw [code_eq_chainCode, code_eq_chainCode, chainCode]
  cases hl : left.chainCode o with
  | error r => rfl
  | ok c => exact ChainCode.extend_eq (chainCode_float hl) operator (right.code o)

/-- A value that may be stored is stored as it is, and keeps the scratch local. -/
theorem storedCode_eq_ok {o : Options} {value code : List Instr}
    (h : storedCode o value = .ok code) :
    code = value ∧ Instr.writesLocal o.scratch value = false := by
  unfold storedCode at h
  split at h
  · cases h
  · next hw => cases h; exact ⟨rfl, by simpa using hw⟩

end Chainlet
