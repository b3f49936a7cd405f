import Chainlet.Module.OfProgram
import Chainlet.Proofs.Meaning.Fragments

/-!
# Proofs/Meaning/Compiled — the code of a program does what the program means

The code of an expression of words, run from any stack, pushes the word that the expression
evaluates to and nothing else, changes globals, heap pointer and memory as the evaluation does, and
traps exactly when the evaluation traps (`Expression.implements_code`).  The induction is on the
program; what it needs of the stack below, of the scratch local and of the offsets of entries is in
`Implements` and `Stores`.  `follows_topLevelCode` puts the items of a program together.
-/

namespace Chainlet

variable {o : Options} {floats : FloatUnit}

/-! ## Sizes and offsets -/

theorem objectSize_eq (fields : List Field) :
    objectSize fields = UInt32.ofNat (4 * fields.length) := by
  have hfold : ∀ (fs : List Field) (size : UInt32),
      fs.foldl (fun size _ => size + wordSize) size = size + UInt32.ofNat (4 * fs.length) := by
    intro fs
    induction fs with
    | nil => simp
    | cons f fs ih =>
      intro size
      rw [List.foldl_cons, ih, List.length_cons, Nat.mul_succ, UInt32.ofNat_add, UInt32.add_assoc,
        UInt32.add_comm wordSize]
      rfl
  rw [objectSize, hfold, UInt32.zero_add]

/-- An object of fewer words than have addresses is allocated with one word for each field. -/
theorem objectSize_div {fields : List Field} (h : fields.length < compositeLimit) :
    objectSize fields / wordSize = UInt32.ofNat fields.length := by
  unfold compositeLimit at h
  apply UInt32.toNat_inj.1
  rw [objectSize_eq, UInt32.toNat_div, UInt32.toNat_ofNat_of_lt' (by simp [UInt32.size]; omega),
    UInt32.toNat_ofNat_of_lt' (by simp [UInt32.size]; omega)]
  exact Nat.mul_div_cancel_left _ (by decide)

/-- The offset of the entry after one with a small number. -/
theorem toNat_nextOffset {offset : UInt32} {i : Nat} (h : offset.toNat = 4 * i)
    (hi : i + 1 < compositeLimit) : (offset + wordSize).toNat = 4 * (i + 1) := by
  unfold compositeLimit at hi
  have hword : wordSize.toNat = 4 := rfl
  rw [UInt32.toNat_add, h, hword]
  omega

/-! ## Entries -/

/-- The store of one entry at its place behind the base. -/
theorem Stores.entry {e : Expression} {i : Nat} {base offset : UInt32} {type : NumberType}
    {more : Store → Except Halt Store} {code rest : List Instr}
    (he : Implements o floats leavesWord e.evaluate code)
    (hkeeps : Instr.writesLocal o.scratch code = false) (hoffset : offset.toNat = 4 * i)
    (hmore : Stores o floats base more rest) :
    Stores o floats base (fun s => do
      let (w, s) ← e.evaluate s
      more (s.write (base.toNat + 4 * i) w))
      (.localGet o.scratch :: code ++ .store type offset :: rest) := by
  rw [← hoffset]
  exact Stores.cons he hkeeps hmore

/-! ## Expressions -/

mutual

/-- **The code of an expression of words computes its value.** -/
theorem Expression.implements_code : ∀ (e : Expression) {code : List Instr},
    e.isScalar o.heapGlobal = true → e.code o = .ok code →
      Implements o floats leavesWord e.evaluate code
  | .binary left operator right _, code, hs, h => by
    rw [Expression.isScalar, Bool.and_eq_true] at hs
    rw [Expression.code_binary] at h
    obtain ⟨l, hl, h⟩ := bind_eq_ok.1 h
    obtain ⟨r, hr, h⟩ := bind_eq_ok.1 h
    exact ((left.implements_code hs.1 hl).operator (right.implements_code hs.2 hr) h).of_eq
      fun s => by rw [Expression.evaluate]
  | .call _, _, hs, _ => by simp [Expression.isScalar] at hs
  | .operand value, code, hs, h => by
    rw [Expression.isScalar] at hs
    rw [Expression.code_operand] at h
    exact (value.implements_code hs h).of_eq fun s => by rw [Expression.evaluate]

theorem Operand.implements_code : ∀ (v : Operand) {code : List Instr},
    v.isScalar o.heapGlobal = true → v.code o = .ok code →
      Implements o floats leavesWord v.evaluate code
  | .literal value, code, hs, h => by
    rw [Operand.isScalar] at hs
    rw [Operand.code] at h
    exact (value.implements_code hs h).of_eq fun s => by rw [Operand.evaluate]
  | .path p, code, hs, h => by
    rw [Operand.isScalar, bne_iff_ne] at hs
    rw [Operand.code] at h
    cases h
    exact (implements_globalGet hs).of_eq fun s => by rw [Operand.evaluate]
  | .block b, code, hs, h => by
    rw [Operand.isScalar] at hs
    rw [Operand.code] at h
    exact (b.implements_code hs h).of_eq fun s => by rw [Operand.evaluate]
  | .group inner, code, hs, h => by
    rw [Operand.isScalar] at hs
    rw [Operand.code, codeBefore_nil] at h
    exact (inner.implements_code hs h).of_eq fun s => by rw [Operand.evaluate]

theorem Block.implements_code : ∀ (b : Block) {code : List Instr},
    b.isScalar o.heapGlobal = true → b.code o = .ok code →
      Implements o floats leavesWord b.evaluate code
  | ⟨items, _⟩, code, hs, h => by
    rw [Block.isScalar] at hs
    rw [Block.code] at h
    obtain ⟨body, hbody, h⟩ := bind_eq_ok.1 h
    cases h
    exact (implements_itemsCode items hs hbody).block.of_eq fun s => by rw [Block.evaluate]

theorem Literal.implements_code : ∀ (l : Literal) {code : List Instr},
    l.isScalar o.heapGlobal = true → l.code o = .ok code →
      Implements o floats leavesWord l.evaluate code
  | .int text base _, code, _, h => by
    rw [Literal.code] at h
    split at h
    · next value hvalue =>
      cases h
      exact (implements_word value).of_eq fun s => by rw [Literal.evaluate, hvalue]
    · cases h
  | .boolean value _, code, _, h => by
    rw [Literal.code] at h
    cases h
    exact (implements_word _).of_eq fun s => by rw [Literal.evaluate]
  | .string _ _, code, _, h => by
    rw [Literal.code] at h
    cases h
    exact (implements_word 0).of_eq fun s => by rw [Literal.evaluate]
  | .object fields _, code, hs, h => by
    rw [Literal.isScalar, Bool.and_eq_true, decide_eq_true_eq] at hs
    rw [Literal.code] at h
    obtain ⟨stores, hstores, h⟩ := bind_eq_ok.1 h
    cases h
    rw [objectSize_div hs.1]
    have hfields : ∀ base, Stores o floats base (evaluateFields base 0 fields) stores := fun base =>
      stores_fieldsCode fields hs.2 hstores rfl (by simpa using hs.1)
    exact (Implements.allocated fields.length hfields).of_eq fun s => by rw [Literal.evaluate]
  | .array .., _, hs, _ | .tuple .., _, hs, _ | .float .., _, hs, _ => by simp [Literal.isScalar] at hs

/-- The code of fields writes them one by one behind the base of their object. -/
theorem stores_fieldsCode {base : UInt32} : ∀ (fields : List Field) {i : Nat} {offset : UInt32}
    {code : List Instr}, scalarFields o.heapGlobal fields = true →
      fieldsCode o offset fields = .ok code → offset.toNat = 4 * i →
      i + fields.length < compositeLimit →
      Stores o floats base (evaluateFields base i fields) code
  | [], i, offset, code, _, h, _, _ => by
    rw [fieldsCode] at h
    cases h
    exact (stores_nil base).of_eq fun s => by rw [evaluateFields]
  | ⟨key, e, _⟩ :: fields, i, offset, code, hs, h, hoffset, hlength => by
    rw [scalarFields, Bool.and_eq_true, Bool.and_eq_true] at hs
    rw [List.length_cons] at hlength
    rw [fieldsCode] at h
    obtain ⟨value, hvalue, h⟩ := bind_eq_ok.1 h
    obtain ⟨stored, hstored, h⟩ := bind_eq_ok.1 h
    obtain ⟨rest, hrest, h⟩ := bind_eq_ok.1 h
    cases h
    obtain ⟨rfl, hkeeps⟩ := storedCode_eq_ok hstored
    have hmore : Stores o floats base (evaluateFields base (i + 1) fields) rest :=
      stores_fieldsCode fields hs.2.2 hrest (toNat_nextOffset hoffset (by omega)) (by omega)
    exact (Stores.entry (e.implements_code hs.2.1 hvalue) hkeeps hoffset hmore).of_eq
      fun s => by rw [evaluateFields]

/-- The code of assignments and a final expression computes the value of that expression. -/
theorem implements_itemsCode : ∀ (items : List Item) {code : List Instr},
    scalarItems o.heapGlobal items = true → itemsCode o items = .ok code →
      Implements o floats leavesWord (evaluateItems items) code
  | .statement (.assignment target value _) :: items, code, hs, h => by
    rw [scalarItems, Bool.and_eq_true, Bool.and_eq_true, bne_iff_ne] at hs
    rw [itemsCode, Item.code, codeBefore_nil] at h
    obtain ⟨first, hfirst, h⟩ := bind_eq_ok.1 h
    obtain ⟨rest, hrest, h⟩ := bind_eq_ok.1 h
    obtain ⟨v, hv, hfirst⟩ := bind_eq_ok.1 hfirst
    cases h
    cases hfirst
    refine (((value.implements_code hs.2.1 hv).assign hs.1).append
      (implements_itemsCode items hs.2.2 hrest)).of_eq fun s => ?_
    rw [evaluateItems, bind_assoc]
    rfl
  | [.expression e], code, hs, h => by
    rw [scalarItems] at hs
    rw [itemsCode, itemsCode, Item.code, codeBefore_nil] at h
    obtain ⟨value, hvalue, h⟩ := bind_eq_ok.1 h
    cases h
    rw [List.append_nil]
    exact (e.implements_code hs hvalue).of_eq fun s => by rw [evaluateItems]
  | [], _, hs, _ | .expression _ :: _ :: _, _, hs, _ | .statement (.definition _) :: _, _, hs, _ => by
    simp [scalarItems] at hs

end

end Chainlet
