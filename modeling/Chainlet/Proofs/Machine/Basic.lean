import Chainlet.Module.Instr
import Chainlet.Proofs.Outcome

/-!
# Proofs/Machine/Basic — the stack machine that runs the instructions

`Machine.run` executes instructions in order: words wrap around, a division traps on a zero divisor
and on the one quotient that no word holds, a global that was never written reads zero, and a block
runs in place.  The runtime's bump allocator hands out the heap pointer and moves it past the words
asked for.  Two laws carry the proofs about code:

* `run_append` — running two pieces of code is running one after the other.
* `locals_run` — code that does not write a local keeps it.
-/

namespace Chainlet

/-! ## Values -/

/-- A value on the stack, in a global, in a local or in memory. -/
inductive Value where
  | word (w : UInt32)
  | float (x : Binary32)
deriving DecidableEq, Repr

/-- Why a run does not end. -/
inductive Halt where
  /-- A division that has no result. -/
  | trap
  /-- An instruction without the values it needs, or a construct that means nothing. -/
  | stuck
deriving DecidableEq, Repr

/-- The quotient of two words read as signed numbers, rounded towards zero.  There is none for a
zero divisor, nor for the least number divided by minus one. -/
def signedQuotient? (a b : UInt32) : Option UInt32 :=
  if b = 0 ∨ a = 0x80000000 ∧ b = 0xFFFFFFFF then none
  else some (UInt32.ofBitVec (BitVec.ofInt 32 (a.toBitVec.toInt.tdiv b.toBitVec.toInt)))

/-- An operation on words. -/
def Arithmetic.onWords (a b : UInt32) : Arithmetic → Option UInt32
  | add => some (a + b)
  | sub => some (a - b)
  | mul => some (a * b)
  | div => signedQuotient? a b

/-- The operations on floats, and the float that a word is read as among floats. -/
structure FloatUnit where
  ofWord : UInt32 → Binary32
  apply : Arithmetic → Binary32 → Binary32 → Binary32

namespace FloatUnit

/-- A value as a float. -/
def read (u : FloatUnit) : Value → Binary32
  | .word w => u.ofWord w
  | .float x => x

end FloatUnit

/-- What a module is linked with: the allocator, the global that holds the heap pointer, and the
operations on floats. -/
structure Runtime where
  allocator : String
  heapGlobal : String
  floats : FloatUnit

/-! ## Machines -/

/-- A machine: the stack with its top first, the globals and locals written so far, the values
stored at addresses, and the calls of functions other than the allocator. -/
structure Machine where
  stack : List Value
  globals : String → Option Value
  locals : String → Option Value
  memory : Nat → Option Value
  calls : List String

namespace Machine

/-- The value of a global, zero if it was never written. -/
def global (m : Machine) (name : String) : Value := (m.globals name).getD (.word 0)

def push (m : Machine) (v : Value) : Machine := { m with stack := v :: m.stack }

def setGlobal (m : Machine) (name : String) (v : Value) : Machine :=
  { m with globals := fun g => if g = name then some v else m.globals g }

def setLocal (m : Machine) (name : String) (v : Value) : Machine :=
  { m with locals := fun l => if l = name then some v else m.locals l }

def setMemory (m : Machine) (address : Nat) (v : Value) : Machine :=
  { m with memory := fun a => if a = address then some v else m.memory a }

/-- Take the top of the stack. -/
def pop (m : Machine) : Except Halt (Value × Machine) :=
  match m.stack with
  | v :: rest => .ok (v, { m with stack := rest })
  | [] => .error .stuck

/-- Take the top of the stack, which must be a word. -/
def popWord (m : Machine) : Except Halt (UInt32 × Machine) :=
  match m.stack with
  | .word w :: rest => .ok (w, { m with stack := rest })
  | _ => .error .stuck

/-- Replace the two values on top of the stack by the result of an operation. -/
def operate (m : Machine) (u : FloatUnit) (operation : Arithmetic) : NumberType → Except Halt Machine
  | .i32 => do
    let (b, m) ← m.popWord
    let (a, m) ← m.popWord
    match operation.onWords a b with
    | some w => pure (m.push (.word w))
    | none => throw .trap
  | .f32 => do
    let (b, m) ← m.pop
    let (a, m) ← m.pop
    pure (m.push (.float (u.apply operation (u.read a) (u.read b))))

/-- Replace a number of words by the address of as many new ones. -/
def allocate (m : Machine) (heapGlobal : String) : Except Halt Machine := do
  let (words, m) ← m.popWord
  match m.global heapGlobal with
  | .word base => pure ((m.setGlobal heapGlobal (.word (base + 4 * words))).push (.word base))
  | .float _ => throw .stuck

/-- Take a value and below it a base, and write the value behind the base. -/
def store (m : Machine) (offset : UInt32) : Except Halt Machine := do
  let (v, m) ← m.pop
  let (base, m) ← m.popWord
  pure (m.setMemory (base.toNat + offset.toNat) v)

mutual

/-- Run one instruction. -/
def step (r : Runtime) : Instr → Machine → Except Halt Machine
  | .i32Const value, m => .ok (m.push (.word value))
  | .f32Const value, m => .ok (m.push (.float value))
  | .arithmetic type operation, m => m.operate r.floats operation type
  | .globalGet name, m => .ok (m.push (m.global name))
  | .globalSet name, m => do
    let (v, m) ← m.pop
    pure (m.setGlobal name v)
  | .localGet name, m =>
    match m.locals name with
    | some v => .ok (m.push v)
    | none => .error .stuck
  | .localTee name, m =>
    match m.stack with
    | v :: _ => .ok (m.setLocal name v)
    | [] => .error .stuck
  | .call name, m =>
    if name = r.allocator then m.allocate r.heapGlobal
    else .ok { m with calls := m.calls ++ [name] }
  | .store _ offset, m => m.store offset
  | .block body, m => run r body m

/-- **Run instructions in order.** -/
def run (r : Runtime) : List Instr → Machine → Except Halt Machine
  | [], m => .ok m
  | i :: is, m => do run r is (← step r i m)

end

@[simp] theorem run_nil (r : Runtime) (m : Machine) : run r [] m = .ok m := by rw [run]

@[simp] theorem run_cons (r : Runtime) (i : Instr) (is : List Instr) (m : Machine) :
    run r (i :: is) m = step r i m >>= run r is := by rw [run]

/-- **Running two pieces of code is running one after the other.** -/
theorem run_append (r : Runtime) (a b : List Instr) (m : Machine) :
    run r (a ++ b) m = run r a m >>= run r b := by
  induction a generalizing m with
  | nil => rfl
  | cons i is ih =>
    rw [List.cons_append, run_cons, run_cons, bind_assoc]
    exact congrArg (step r i m >>= ·) (funext ih)

/-! ## What code keeps

Only a `localTee` changes a local, and it changes the one it names. -/

@[simp] theorem locals_push (m : Machine) (v : Value) : (m.push v).locals = m.locals := rfl

@[simp] theorem locals_setGlobal (m : Machine) (name : String) (v : Value) :
    (m.setGlobal name v).locals = m.locals := rfl

@[simp] theorem locals_setMemory (m : Machine) (address : Nat) (v : Value) :
    (m.setMemory address v).locals = m.locals := rfl

theorem locals_setLocal_of_ne {m : Machine} {name other : String} {v : Value} (h : name ≠ other) :
    (m.setLocal other v).locals name = m.locals name := if_neg h

theorem locals_pop {m m' : Machine} {v : Value} (h : m.pop = .ok (v, m')) :
    m'.locals = m.locals := by
  unfold pop at h
  split at h
  · cases h; rfl
  · cases h

theorem locals_popWord {m m' : Machine} {w : UInt32} (h : m.popWord = .ok (w, m')) :
    m'.locals = m.locals := by
  unfold popWord at h
  split at h
  · cases h; rfl
  · cases h

theorem locals_operate {m m' : Machine} {u : FloatUnit} {operation : Arithmetic}
    {type : NumberType} (h : m.operate u operation type = .ok m') : m'.locals = m.locals := by
  cases type with
  | i32 =>
    obtain ⟨⟨b, m₁⟩, h₁, h⟩ := bind_eq_ok.1 h
    obtain ⟨⟨a, m₂⟩, h₂, h⟩ := bind_eq_ok.1 h
    dsimp only at h
    split at h
    · cases h; exact (locals_popWord h₂).trans (locals_popWord h₁)
    · cases h
  | f32 =>
    obtain ⟨⟨b, m₁⟩, h₁, h⟩ := bind_eq_ok.1 h
    obtain ⟨⟨a, m₂⟩, h₂, h⟩ := bind_eq_ok.1 h
    cases h
    exact (locals_pop h₂).trans (locals_pop h₁)

theorem locals_allocate {m m' : Machine} {heapGlobal : String}
    (h : m.allocate heapGlobal = .ok m') : m'.locals = m.locals := by
  obtain ⟨⟨words, m₁⟩, h₁, h⟩ := bind_eq_ok.1 h
  dsimp only at h
  split at h
  · cases h
    rw [locals_push, locals_setGlobal]
    exact locals_popWord h₁
  · cases h

theorem locals_store {m m' : Machine} {offset : UInt32} (h : m.store offset = .ok m') :
    m'.locals = m.locals := by
  obtain ⟨⟨v, m₁⟩, h₁, h⟩ := bind_eq_ok.1 h
  obtain ⟨⟨base, m₂⟩, h₂, h⟩ := bind_eq_ok.1 h
  cases h
  exact (locals_popWord h₂).trans (locals_pop h₁)

mutual

theorem locals_step {r : Runtime} {name : String} :
    ∀ (i : Instr) {m m' : Machine}, i.assigns name = false → step r i m = .ok m' →
      m'.locals name = m.locals name
  | .i32Const _, _, _, _, h | .f32Const _, _, _, _, h | .globalGet _, _, _, _, h => by
    cases h; rfl
  | .arithmetic .., _, _, _, h => congrFun (locals_operate h) name
  | .globalSet _, _, _, _, h => by
    obtain ⟨⟨v, m₁⟩, h₁, h⟩ := bind_eq_ok.1 h
    cases h
    exact congrFun (locals_pop h₁) name
  | .localGet _, _, _, _, h => by
    unfold step at h
    split at h
    · cases h; rfl
    · cases h
  | .localTee target, _, _, ha, h => by
    unfold step at h
    split at h
    · cases h
      have hne : target ≠ name := by simpa [Instr.assigns] using ha
      exact locals_setLocal_of_ne hne.symm
    · cases h
  | .call callee, _, _, _, h => by
    unfold step at h
    split at h
    · exact congrFun (locals_allocate h) name
    · cases h; rfl
  | .store .., _, _, _, h => congrFun (locals_store h) name
  | .block body, _, _, ha, h => by
    rw [step] at h
    exact locals_run body (by simpa [Instr.assigns] using ha) h

/-- **Code that does not write a local keeps it.** -/
theorem locals_run {r : Runtime} {name : String} :
    ∀ (code : List Instr) {m m' : Machine}, Instr.writesLocal name code = false →
      run r code m = .ok m' → m'.locals name = m.locals name
  | [], _, _, _, h => by cases h; rfl
  | i :: is, _, _, ha, h => by
    rw [Instr.writesLocal, Bool.or_eq_false_iff] at ha
    obtain ⟨m₁, h₁, h⟩ := bind_eq_ok.1 ((run_cons ..).symm.trans h)
    exact (locals_run is ha.2 h).trans (locals_step i ha.1 h₁)

end

end Machine

end Chainlet
