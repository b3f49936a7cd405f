import Chainlet.Proofs.Code.Globals
import Chainlet.Proofs.Code.Layout
import Chainlet.Proofs.Stack.Block

/-!
# Proofs/Stack/Stores — the addresses that a composite literal writes

Only a store changes memory (`Machine.memory_run`), and the values inside an array or object have none.
Where each of them adds one value, its store finds the base under it, so **the literal writes no address
but those of its entries behind the base** (`memory_run_entries`).  A value that adds more than one hides
the base: its store takes another value for it.
-/

namespace Chainlet

variable {o : Options} {r : Runtime} {cs : List Construct} {code : List Instr}

/-! ## Code without stores -/

/-- Only arrays and objects are stored to memory. -/
theorem Emits.stores_eq_nil (h : Emits o cs code) (hnone : cs.filter Construct.isComposite = []) :
    Instr.stores code = [] := by
  induction h with
  | nil | word | float | path | call | operator | assignment => rfl
  | append _ _ ih ih' =>
    rw [List.filter_append, List.append_eq_nil_iff] at hnone
    rw [Instr.stores_append, ih hnone.1, ih' hnone.2, List.append_nil]
  | block _ ih => rw [Instr.stores_block, ih hnone]
  | composite stores =>
    have hcomposite : Construct.isComposite (.literal _) = true := stores.isComposite
    rw [stores.constructs_eq, List.filter_cons_of_pos hcomposite] at hnone
    cases hnone

namespace Machine

theorem memory_push (m : Machine) (v : Value) : (m.push v).memory = m.memory := rfl

theorem memory_setGlobal (m : Machine) (name : String) (v : Value) :
    (m.setGlobal name v).memory = m.memory := rfl

/-- A store changes no memory at another address. -/
theorem memory_setMemory_of_ne {m : Machine} {address other : Nat} {v : Value} (h : address ≠ other) :
    (m.setMemory other v).memory address = m.memory address := if_neg h

/-- A change of the stack changes no memory. -/
theorem memory_of_stack {m m' : Machine} {stack : List Value} (h : m' = { m with stack := stack }) :
    m'.memory = m.memory := by
  rw [h]

mutual

/-- An instruction without a store changes no memory. -/
theorem memory_step : ∀ (i : Instr) {m m' : Machine}, Instr.stores [i] = [] → step r i m = .ok m' →
    m'.memory = m.memory
  | .i32Const _, _, _, _, h | .f32Const _, _, _, _, h | .globalGet _, _, _, _, h => by
    cases h; rfl
  | .arithmetic .., _, _, _, h => memory_of_stack (operate_keeps h)
  | .globalSet _, _, _, _, h => by
    obtain ⟨⟨v, m₁⟩, hpop, h⟩ := bind_eq_ok.1 h
    cases h
    rw [memory_setGlobal]
    exact memory_of_stack (pop_eq hpop)
  | .localGet _, _, _, _, h => by
    unfold step at h
    split at h
    · cases h; rfl
    · cases h
  | .localTee _, _, _, _, h => by
    unfold step at h
    split at h
    · cases h; rfl
    · cases h
  | .call _, _, _, _, h => by
    unfold step at h
    split at h
    · obtain ⟨⟨words, m₁⟩, hpop, h⟩ := bind_eq_ok.1 h
      dsimp only at h
      split at h
      · cases h
        rw [memory_push, memory_setGlobal]
        exact memory_of_stack (popWord_eq hpop)
      · cases h
    · cases h; rfl
  | .store .., _, _, hstores, _ => by cases hstores
  | .block body, _, _, hstores, h => by
    rw [step] at h
    rw [Instr.stores_block] at hstores
    exact memory_run body hstores h

/-- **Code without stores keeps the memory.** -/
theorem memory_run : ∀ (code : List Instr) {m m' : Machine}, Instr.stores code = [] →
    run r code m = .ok m' → m'.memory = m.memory
  | [], _, _, _, h => by cases h; rfl
  | i :: is, _, _, hstores, h => by
    rw [← List.singleton_append, Instr.stores_append, List.append_eq_nil_iff] at hstores
    obtain ⟨m₁, h₁, h⟩ := bind_eq_ok.1 ((run_cons ..).symm.trans h)
    exact (memory_run is hstores.2 h).trans (memory_step i hstores.1 h₁)

end

end Machine

/-! ## Entries -/

/-- The values inside an array or object have no store. -/
theorem StoresEntries.values_stores {value : Literal} {entries : List StoredEntry}
    (h : StoresEntries o value entries code) : ∀ entry ∈ entries, Instr.stores entry.value = [] := by
  intro entry hmem
  have hemits := entry.source.emits (h.value_eq entry hmem)
  exact hemits.stores_eq_nil (filter_isComposite_of_keeps hemits.tees_eq (h.keeps entry hmem))

/-- **The base lies under what the value of an entry adds.** -/
theorem StoredEntry.stack_eq {entry : StoredEntry} {scratch : String} {base : Value} {count : Nat}
    {m m' : Machine} (hadds : Adds r count entry.value) (hbase : m.locals scratch = some base)
    (h : m.run r (.localGet scratch :: entry.value) = .ok m') :
    ∃ values, m'.stack = values ++ base :: m.stack ∧ values.length = count := by
  rw [Machine.run_cons, Machine.step, hbase] at h
  exact hadds.stack h

/-- **The store of an entry finds the base under its value**, if that adds one value. -/
theorem StoredEntry.run_code {entry : StoredEntry} {scratch : String} {base : UInt32} {m m' : Machine}
    (hadds : Adds r 1 entry.value) (hbase : m.locals scratch = some (.word base))
    (h : m.run r (entry.code scratch) = .ok m') : ∃ m₁ v,
      (m.push (.word base)).run r entry.value = .ok m₁ ∧ m₁.stack = v :: .word base :: m.stack ∧
      m' = { m₁ with stack := m.stack }.setMemory (base.toNat + entry.offset.toNat) v := by
  have hget : m.step r (.localGet scratch) = .ok (m.push (.word base)) := by
    rw [Machine.step, hbase]
  rw [StoredEntry.code, List.cons_append, Machine.run_cons, hget, ok_bind, Machine.run_append] at h
  obtain ⟨m₁, hrun, h⟩ := bind_eq_ok.1 h
  obtain ⟨v, hstack⟩ := hadds.exists_top hrun
  refine ⟨m₁, v, hrun, hstack, ?_⟩
  rw [Machine.run_singleton, Machine.step, Machine.store_of_stack hstack] at h
  exact (Except.ok.inj h).symm

/-- **Entries write no address but their own behind the base**, if each of their values adds one value
and neither stores nor assigns the local that holds the base. -/
theorem memory_run_entries {scratch : String} {base : UInt32} : ∀ (entries : List StoredEntry)
    {m m' : Machine},
    (∀ entry ∈ entries, Adds r 1 entry.value ∧ Instr.stores entry.value = [] ∧
      Instr.writesLocal scratch entry.value = false) →
    m.locals scratch = some (.word base) →
    m.run r (entries.flatMap (StoredEntry.code scratch)) = .ok m' →
    ∀ address, (∀ entry ∈ entries, address ≠ base.toNat + entry.offset.toNat) →
      m'.memory address = m.memory address
  | [], _, _, _, _, h, _, _ => by cases h; rfl
  | entry :: entries, m, _, hentries, hbase, h, address, hother => by
    rw [List.flatMap_cons, Machine.run_append] at h
    obtain ⟨m₁, hrun, h⟩ := bind_eq_ok.1 h
    obtain ⟨⟨hadds, hstores, hkeeps⟩, hentries⟩ := List.forall_mem_cons.1 hentries
    obtain ⟨hne, hother⟩ := List.forall_mem_cons.1 hother
    obtain ⟨m₀, v, hvalue, -, rfl⟩ := entry.run_code hadds hbase hrun
    refine (memory_run_entries entries hentries ?_ h address hother).trans ?_
    · rw [Machine.locals_setMemory]
      exact (Machine.locals_run entry.value hkeeps hvalue).trans hbase
    · rw [Machine.memory_setMemory_of_ne hne]
      exact congrFun (Machine.memory_run entry.value hstores hvalue) address

/-- **A composite literal writes no address but those of its entries behind the address allocated.** -/
theorem StoresEntries.memory_run {floats : FloatUnit} {value : Literal} {entries : List StoredEntry}
    (h : StoresEntries o value entries code)
    (hadds : ∀ entry ∈ entries, Adds (o.runtime floats) 1 entry.value) {m m' : Machine}
    (hrun : m.run (o.runtime floats) code = .ok m') :
    ∃ base, m.global o.heapGlobal = .word base ∧
      ∀ address, (∀ entry ∈ entries, address ≠ base.toNat + entry.offset.toNat) →
        m'.memory address = m.memory address := by
  obtain ⟨words, closing, rfl, hclosing⟩ := h.shape
  have hclosed : Instr.stores closing = [] := by obtain rfl | ⟨count, rfl⟩ := hclosing <;> rfl
  rw [Machine.run_append] at hrun
  obtain ⟨m₁, hallocation, hrun⟩ := bind_eq_ok.1 hrun
  obtain ⟨base, hbase, rfl⟩ := run_allocation_eq_ok hallocation
  rw [Machine.run_append] at hrun
  obtain ⟨m₂, hentries, hrun⟩ := bind_eq_ok.1 hrun
  refine ⟨base, hbase, fun address hother => ?_⟩
  rw [Machine.memory_run closing hclosed hrun]
  exact memory_run_entries entries (fun entry hmem => ⟨hadds entry hmem, h.values_stores entry hmem,
    h.keeps entry hmem⟩) (if_pos rfl) hentries address hother

/-! ## Composite literals -/

/-- **Where a composite literal stores its entries.**  An array or object that has code stores its entries
one by one.  Its number of words is the one `Literal.wordCount` gives, and the offset of the entry
numbered `i` is `4 * i`, both modulo `2 ^ 32`: the entries stand one behind the other inside what is
allocated, and no word on the way is too small, exactly when there are fewer than `2 ^ 30` of them.
Where each value adds one value to the stack, a run writes no address but those offsets behind the
address that the allocator hands out. -/
theorem Literal.code_layout {o : Options} {value : Literal} {code : List Instr}
    (hcomposite : value.isComposite = true) (h : value.code o = .ok code) :
    ∃ entries, StoresEntries o value entries code ∧ value.words.toNat = value.wordCount ∧
      (∀ i entry, entries[i]? = some entry → entry.offset.toNat = 4 * i % 2 ^ 32) ∧
      (value.Layout entries ↔ value.entries.length < compositeLimit) ∧
      ∀ floats : FloatUnit, (∀ entry ∈ entries, Adds (o.runtime floats) 1 entry.value) →
        ∀ m m' : Machine, m.run (o.runtime floats) code = .ok m' →
          ∃ base, m.global o.heapGlobal = .word base ∧
            ∀ address, (∀ entry ∈ entries, address ≠ base.toNat + entry.offset.toNat) →
              m'.memory address = m.memory address := by
  obtain ⟨entries, hstores⟩ := Literal.stores_code hcomposite h
  exact ⟨entries, hstores, Literal.toNat_words h, fun i entry => hstores.toNat_offset,
    hstores.layout_iff, fun floats hadds m m' => hstores.memory_run hadds⟩

/-- `${ x = 1, y: f32 = 2 }` -/
def twoFields : Literal :=
  .object [⟨⟨"x", none, none⟩, .operand (.literal (.int "1" .decimal none)), none⟩,
    ⟨⟨"y", some ⟨"f32", none⟩, none⟩, .operand (.literal (.int "2" .decimal none)), none⟩] none

/-- The two fields stand one behind the other in two words. -/
theorem twoFields_layout : ∃ code entries, twoFields.code {} = .ok code ∧
    StoresEntries {} twoFields entries code ∧ twoFields.Layout entries := by
  obtain ⟨entries, hstores, -, -, hlayout, -⟩ :=
    Literal.code_layout rfl (show twoFields.code {} = .ok _ from rfl)
  exact ⟨_, entries, rfl, hstores, hlayout.2 (by decide)⟩

/-- `0` -/
def zeroValue : Expression := .operand (.literal (.int "0" .decimal none))

/-- `$[0, …, 0]` -/
def zeroArray (n : Nat) : Literal := .array (List.replicate n zeroValue) none

/-- `${ x = 0, …, x = 0 }` -/
def zeroObject (n : Nat) : Literal := .object (List.replicate n ⟨⟨"x", none, none⟩, zeroValue, none⟩) none

/-- Any number of zeroes has code. -/
theorem elementsCode_zeroValue (n : Nat) (offset : UInt32) :
    Succeeds (elementsCode {} offset (List.replicate n zeroValue)) := by
  induction n generalizing offset with
  | zero => exact ⟨[], by rw [List.replicate_zero, elementsCode]; rfl⟩
  | succ n ih =>
    obtain ⟨rest, hrest⟩ := ih (offset + wordSize)
    refine ⟨.localGet "addr" :: [.i32Const 0] ++ .store .i32 offset :: rest, ?_⟩
    rw [List.replicate_succ, elementsCode, hrest]
    rfl

theorem fieldsCode_zeroValue (n : Nat) (offset : UInt32) :
    Succeeds (fieldsCode {} offset (List.replicate n ⟨⟨"x", none, none⟩, zeroValue, none⟩)) := by
  induction n generalizing offset with
  | zero => exact ⟨[], by rw [List.replicate_zero, fieldsCode]; rfl⟩
  | succ n ih =>
    obtain ⟨rest, hrest⟩ := ih (offset + wordSize)
    refine ⟨.localGet "addr" :: [.i32Const 0] ++ .store .i32 offset :: rest, ?_⟩
    rw [List.replicate_succ, fieldsCode, hrest]
    rfl

/-- An array of zeroes has code, as long as its length fits a word. -/
theorem zeroArray_code {n : Nat} (h : n < UInt32.size) : Succeeds ((zeroArray n).code {}) := by
  obtain ⟨stores, hstores⟩ := elementsCode_zeroValue n 0
  have hcount : word? (List.replicate n zeroValue).length = some (UInt32.ofNat n) := by
    rw [List.length_replicate]
    exact if_pos h
  refine ⟨allocation {} (UInt32.ofNat n) ++ stores ++ [.i32Const (UInt32.ofNat n)], ?_⟩
  rw [zeroArray, Literal.code, hcount]
  dsimp only
  rw [hstores]
  rfl

/-- An object of zeroes has code, whatever its length. -/
theorem zeroObject_code (n : Nat) : Succeeds ((zeroObject n).code {}) := by
  obtain ⟨stores, hstores⟩ := fieldsCode_zeroValue n 0
  refine ⟨allocation {} (zeroObject n).words ++ stores, ?_⟩
  rw [zeroObject, Literal.code, hstores]
  rfl

/-- `$[{ 1; 2 }]` -/
def blockElement : Literal :=
  .array [.operand (.block ⟨[.expression (.operand (.literal (.int "1" .decimal none))),
    .expression (.operand (.literal (.int "2" .decimal none)))], none⟩)] none

/-- **Too many entries, or a value that adds two values, break the layout.**  An array of `2 ^ 30 + 1`
elements stores its last one over its first one; an object of `2 ^ 30` fields allocates no word at all;
and the element of `$[{ 1; 2 }]` is stored at address 1, outside of the word that was allocated at 1024
for it. -/
theorem layout_wraps :
    (∃ code entries first last, (zeroArray (compositeLimit + 1)).code {} = .ok code ∧
      StoresEntries {} (zeroArray (compositeLimit + 1)) entries code ∧
      entries[0]? = some first ∧ entries[compositeLimit]? = some last ∧ last.offset = first.offset) ∧
    (∃ code entries, (zeroObject compositeLimit).code {} = .ok code ∧
      StoresEntries {} (zeroObject compositeLimit) entries code ∧
      entries.length = compositeLimit ∧ (zeroObject compositeLimit).words = 0) ∧
    ∃ code, blockElement.code {} = .ok code ∧ ∀ floats : FloatUnit, ∃ m',
      (Machine.ofStore "heap" ⟨fun _ => 0, 1024, fun _ => none⟩).run (Options.runtime {} floats) code
        = .ok m' ∧ m'.memory 1 = some (.word 2) ∧ m'.memory 1024 = none := by
  refine ⟨?_, ?_, _, rfl, fun floats => ⟨_, rfl, rfl, rfl⟩⟩
  · obtain ⟨code, hcode⟩ := zeroArray_code (n := compositeLimit + 1) (by decide)
    obtain ⟨entries, hstores⟩ := Literal.stores_code rfl hcode
    have hlength : entries.length = compositeLimit + 1 := hstores.length_eq.trans List.length_replicate
    have hfirst : 0 < entries.length := hlength ▸ Nat.succ_pos _
    have hlast : compositeLimit < entries.length := hlength ▸ Nat.lt_succ_self _
    refine ⟨code, entries, entries[0], entries[compositeLimit], hcode, hstores,
      List.getElem?_eq_getElem hfirst, List.getElem?_eq_getElem hlast, ?_⟩
    rw [hstores.offset_eq (List.getElem?_eq_getElem hfirst),
      hstores.offset_eq (List.getElem?_eq_getElem hlast)]
    rfl
  · obtain ⟨code, hcode⟩ := zeroObject_code compositeLimit
    obtain ⟨entries, hstores⟩ := Literal.stores_code rfl hcode
    refine ⟨code, entries, hcode, hstores, ?_, ?_⟩
    · rw [hstores.length_eq, zeroObject, Literal.entries, List.length_map, List.length_replicate]
    · rw [zeroObject, Literal.words, objectSize_eq, List.length_replicate]
      rfl

end Chainlet
