import Chainlet.Proofs.Code.Scratch
import Chainlet.Proofs.Stack.Effect

/-!
# Proofs/Stack/Straight — what expressions without calls and blocks leave on the stack

Without calls and blocks every operand leaves one value, but an array leaves two, its address and its
length.  An operator takes two values and leaves one, so a chain leaves one value more than it has
arrays among its operands (`Expression.leaves`).  Entries of composite literals leave nothing: a value
that is stored has no array among its operands, for that would assign the scratch local.
-/

namespace Chainlet

/-! ## Expressions without calls and blocks -/

mutual

/-- Whether an expression has no call and no block in it, at any depth. -/
def Expression.isStraight : Expression → Bool
  | .binary left _ right _ => left.isStraight && right.isStraight
  | .call _ => false
  | .operand value => value.isStraight

def Operand.isStraight : Operand → Bool
  | .literal value => value.isStraight
  | .path _ => true
  | .block _ => false
  | .group inner => inner.isStraight

def Literal.isStraight : Literal → Bool
  | .array elements _ | .tuple elements _ => straightExpressions elements
  | .object fields _ => straightFields fields
  | _ => true

def straightExpressions : List Expression → Bool
  | [] => true
  | e :: es => e.isStraight && straightExpressions es

def straightFields : List Field → Bool
  | [] => true
  | ⟨_, e, _⟩ :: fs => e.isStraight && straightFields fs

end

/-- The arrays that a literal counts as: it leaves so many values more than one. -/
def Literal.arrays : Literal → Nat
  | .array _ _ => 1
  | _ => 0

mutual

/-- The number of arrays among the operands of a chain, in groups too. -/
def Expression.arrays : Expression → Nat
  | .binary left _ right _ => left.arrays + right.arrays
  | .call _ => 0
  | .operand value => value.arrays

def Operand.arrays : Operand → Nat
  | .literal value => value.arrays
  | .path _ => 0
  | .block _ => 0
  | .group inner => inner.arrays

end

mutual

/-- Without arrays and objects at any depth there is no array among the operands. -/
theorem Expression.arrays_eq_zero : ∀ e : Expression,
    e.constructs.any Construct.isComposite = false → e.arrays = 0
  | .binary left operator right _, h => by
    rw [Expression.constructs, List.any_append, List.any_append, Bool.or_eq_false_iff,
      Bool.or_eq_false_iff] at h
    rw [Expression.arrays, left.arrays_eq_zero h.1.1, right.arrays_eq_zero h.1.2]
  | .call _, _ => by rw [Expression.arrays]
  | .operand value, h => by
    rw [Expression.constructs] at h
    rw [Expression.arrays, value.arrays_eq_zero h]

theorem Operand.arrays_eq_zero : ∀ v : Operand,
    v.constructs.any Construct.isComposite = false → v.arrays = 0
  | .literal value, h => by
    rw [Operand.constructs, Literal.constructs_eq, List.any_cons, Bool.or_eq_false_iff] at h
    rw [Operand.arrays]
    cases value with
    | array => cases h.1
    | _ => rfl
  | .path _, _ => by rw [Operand.arrays]
  | .block _, _ => by rw [Operand.arrays]
  | .group inner, h => by
    rw [Operand.constructs] at h
    rw [Operand.arrays, inner.arrays_eq_zero h]

end

variable {o : Options} {floats : FloatUnit} {r : Runtime}

/-! ## Pieces of code -/

namespace Leaves

/-- An operator takes the last value of either operand. -/
theorem operator {a b : Nat} {l right code : List Instr} {operator : String}
    (hl : Leaves r (a + 1) l) (hr : Leaves r (b + 1) right)
    (h : operatorCode operator l right = .ok code) : Leaves r (a + b + 1) code := by
  unfold operatorCode at h
  split at h
  · next operation _ =>
    cases h
    have hboth : Leaves r (2 + (a + b)) (l ++ right) := by
      rw [show 2 + (a + b) = (a + 1) + (b + 1) by omega]
      exact hl.append hr
    rw [Nat.add_comm (a + b)]
    exact hboth.consumed (.arithmetic _ operation)
  · cases h

/-- An allocation leaves the address. -/
theorem allocation (words : UInt32) : Leaves (o.runtime floats) 1 (allocation o words) := by
  have hallocator : StackEffect (o.runtime floats) 1 1 [.call o.allocator] := .allocator
  exact ((StackEffect.i32Const words).append hallocator).append (.localTee o.scratch)

/-- The store of one value takes the value and the address below it. -/
theorem entry {value rest : List Instr} (hvalue : Leaves r 1 value) (scratch : String)
    (type : NumberType) (offset : UInt32) (hrest : Leaves r 0 rest) :
    Leaves r 0 (.localGet scratch :: value ++ .store type offset :: rest) := by
  have haddress : Leaves r 2 (.localGet scratch :: value) :=
    Leaves.append (.localGet scratch) hvalue
  have hstore : Leaves r 0 ((.localGet scratch :: value) ++ [.store type offset]) :=
    StackEffect.append haddress (.store type offset)
  rw [← List.singleton_append (l := rest), ← List.append_assoc]
  exact hstore.append hrest

end Leaves

/-- A value that may be stored has no array among its operands, for that would assign the local. -/
theorem Expression.arrays_of_keeps {e : Expression} {code : List Instr} (h : e.code o = .ok code)
    (hkeeps : Instr.writesLocal o.scratch code = false) : e.arrays = 0 :=
  e.arrays_eq_zero ((e.emits h).writesLocal_eq.symm.trans hkeeps)

/-! ## Expressions -/

mutual

/-- **A chain leaves one value more than it has arrays among its operands.** -/
theorem Expression.leaves : ∀ (e : Expression) {code : List Instr}, e.isStraight = true →
    e.code o = .ok code → Leaves (o.runtime floats) (e.arrays + 1) code
  | .binary left operator right _, code, hs, h => by
    rw [Expression.isStraight, Bool.and_eq_true] at hs
    rw [Expression.code_binary] at h
    obtain ⟨l, hl, h⟩ := bind_eq_ok.1 h
    obtain ⟨r, hr, h⟩ := bind_eq_ok.1 h
    rw [Expression.arrays]
    exact (left.leaves hs.1 hl).operator (right.leaves hs.2 hr) h
  | .call _, _, hs, _ => by simp [Expression.isStraight] at hs
  | .operand value, code, hs, h => by
    rw [Expression.isStraight] at hs
    rw [Expression.code_operand] at h
    rw [Expression.arrays]
    exact value.leaves hs h

theorem Operand.leaves : ∀ (v : Operand) {code : List Instr}, v.isStraight = true →
    v.code o = .ok code → Leaves (o.runtime floats) (v.arrays + 1) code
  | .literal value, code, hs, h => by
    rw [Operand.isStraight] at hs
    rw [Operand.code] at h
    rw [Operand.arrays]
    exact value.leaves hs h
  | .path p, code, _, h => by
    rw [Operand.code] at h
    cases h
    rw [Operand.arrays]
    exact .globalGet p.flatten
  | .block _, _, hs, _ => by simp [Operand.isStraight] at hs
  | .group inner, code, hs, h => by
    rw [Operand.isStraight] at hs
    rw [Operand.code, codeBefore_nil] at h
    rw [Operand.arrays]
    exact inner.leaves hs h

theorem Literal.leaves : ∀ (l : Literal) {code : List Instr}, l.isStraight = true →
    l.code o = .ok code → Leaves (o.runtime floats) (l.arrays + 1) code
  | .int text base _, code, _, h => by
    rw [Literal.code] at h
    split at h <;> cases h
    exact .i32Const _
  | .float x _, code, _, h => by
    rw [Literal.code] at h
    cases h
    exact .f32Const x
  | .boolean _ _, code, _, h | .string _ _, code, _, h => by
    rw [Literal.code] at h
    cases h
    exact .i32Const _
  | .array elements _, code, hs, h => by
    rw [Literal.isStraight] at hs
    rw [Literal.code] at h
    split at h
    · next count _ =>
      obtain ⟨stores, hstores, h⟩ := bind_eq_ok.1 h
      cases h
      have hstored : Leaves (o.runtime floats) 1 (allocation o count ++ stores) :=
        (Leaves.allocation count).append (elements_leave elements hs hstores)
      exact hstored.append (.i32Const count)
    · cases h
  | .object fields _, code, hs, h => by
    rw [Literal.isStraight] at hs
    rw [Literal.code] at h
    obtain ⟨stores, hstores, h⟩ := bind_eq_ok.1 h
    cases h
    exact (Leaves.allocation _).append (fields_leave fields hs hstores)
  | .tuple _ _, code, _, h => by rw [Literal.code] at h; cases h

/-- The stores of elements leave nothing. -/
theorem elements_leave : ∀ (es : List Expression) {offset : UInt32} {code : List Instr},
    straightExpressions es = true → elementsCode o offset es = .ok code →
      Leaves (o.runtime floats) 0 code
  | [], offset, code, _, h => by
    rw [elementsCode] at h
    cases h
    exact .nil 0
  | e :: es, offset, code, hs, h => by
    rw [straightExpressions, Bool.and_eq_true] at hs
    rw [elementsCode] at h
    obtain ⟨value, hvalue, h⟩ := bind_eq_ok.1 h
    obtain ⟨stored, hstored, h⟩ := bind_eq_ok.1 h
    obtain ⟨rest, hrest, h⟩ := bind_eq_ok.1 h
    cases h
    obtain ⟨rfl, hkeeps⟩ := storedCode_eq_ok hstored
    have hone : Leaves (o.runtime floats) (e.arrays + 1) stored := e.leaves hs.1 hvalue
    rw [Expression.arrays_of_keeps hvalue hkeeps] at hone
    exact hone.entry _ _ _ (elements_leave es hs.2 hrest)

/-- The stores of fields leave nothing. -/
theorem fields_leave : ∀ (fs : List Field) {offset : UInt32} {code : List Instr},
    straightFields fs = true → fieldsCode o offset fs = .ok code →
      Leaves (o.runtime floats) 0 code
  | [], offset, code, _, h => by
    rw [fieldsCode] at h
    cases h
    exact .nil 0
  | ⟨key, e, _⟩ :: fs, offset, code, hs, h => by
    rw [straightFields, Bool.and_eq_true] at hs
    rw [fieldsCode] at h
    obtain ⟨value, hvalue, h⟩ := bind_eq_ok.1 h
    obtain ⟨stored, hstored, h⟩ := bind_eq_ok.1 h
    obtain ⟨rest, hrest, h⟩ := bind_eq_ok.1 h
    cases h
    obtain ⟨rfl, hkeeps⟩ := storedCode_eq_ok hstored
    have hone : Leaves (o.runtime floats) (e.arrays + 1) stored := e.leaves hs.1 hvalue
    rw [Expression.arrays_of_keeps hvalue hkeeps] at hone
    exact hone.entry _ _ _ (fields_leave fs hs.2 hrest)

end

end Chainlet
