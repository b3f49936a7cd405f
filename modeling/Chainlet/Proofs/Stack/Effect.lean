import Chainlet.Proofs.Meaning.Simulation

/-!
# Proofs/Stack/Effect — how many values code takes from the stack, and how many it leaves

Code with a `StackEffect` takes a number of values off the stack and leaves a number of others in their
place, and does not look at what stands below (`StackEffect.frame`): it runs the same way on every stack,
with the values below left where they are.  The instructions that literals and operators become have one
each, and effects compose like the pieces of code they belong to (`StackEffect.append`,
`StackEffect.under`).
-/

namespace Chainlet

variable {r : Runtime} {a b c : Nat} {x y : List Instr}

namespace Machine

/-- A machine with other values under those on its stack. -/
def above (m : Machine) (below : List Value) : Machine := { m with stack := m.stack ++ below }

/-- A machine with nothing on its stack. -/
def cleared (m : Machine) : Machine := { m with stack := [] }

theorem stack_above (m : Machine) (below : List Value) : (m.above below).stack = m.stack ++ below := rfl

/-- Values may be put below a machine one after the other. -/
theorem above_above (m : Machine) (below below' : List Value) :
    (m.above below).above below' = m.above (below ++ below') := by
  rw [above, above, above, List.append_assoc]

/-- Every machine stands above its own stack. -/
theorem cleared_above (m : Machine) : m.cleared.above m.stack = m := rfl

/-- A machine with enough values stands above the ones to spare. -/
theorem exists_above {m : Machine} {n : Nat} (h : n ≤ m.stack.length) :
    ∃ m₀ rest, m = above m₀ rest ∧ m₀.stack.length = n ∧ n + rest.length = m.stack.length := by
  refine ⟨{ m with stack := m.stack.take n }, m.stack.drop n, ?_, List.length_take_of_le h, ?_⟩
  · rw [above, List.take_append_drop]
  · rw [List.length_drop]
    omega

theorem run_singleton (r : Runtime) (i : Instr) (m : Machine) : m.run r [i] = m.step r i := by
  rw [run_cons]
  cases step r i m <;> rfl

end Machine

/-! ## Operations on values -/

/-- The result of an operation on two values. -/
def Arithmetic.onValues (u : FloatUnit) (operation : Arithmetic) :
    NumberType → Value → Value → Except Halt Value
  | .i32, .word a, .word b =>
    match operation.onWords a b with
    | some w => .ok (.word w)
    | none => .error .trap
  | .i32, _, _ => .error .stuck
  | .f32, a, b => .ok (.float (u.apply operation (u.read a) (u.read b)))

/-- **An operation takes the two values on top of the stack.** -/
theorem Machine.operate_eq {m : Machine} {u : FloatUnit} {left right : Value} {below : List Value}
    (h : m.stack = right :: left :: below) (operation : Arithmetic) (type : NumberType) :
    m.operate u operation type = (operation.onValues u type left right).map
      fun v => { m with stack := v :: below } := by
  cases type with
  | f32 =>
    rw [Machine.operate, Machine.pop_of_stack h]
    rfl
  | i32 =>
    cases right with
    | float x => rw [Machine.operate, Machine.popWord, h]; cases left <;> rfl
    | word b =>
      cases left with
      | float x => rw [Machine.operate, Machine.popWord_of_stack h]; rfl
      | word a =>
        rw [Machine.operate_of_stack h, Arithmetic.onValues]
        cases operation.onWords a b <;> rfl

/-- The base of a number of words and the address behind them. -/
def Value.allocated : Value → Value → Except Halt (UInt32 × UInt32)
  | .word words, .word base => .ok (base, base + 4 * words)
  | _, _ => .error .stuck

/-- **The allocator takes the value on top of the stack.** -/
theorem Machine.allocate_eq {m : Machine} {heapGlobal : String} {v : Value} {below : List Value}
    (h : m.stack = v :: below) :
    m.allocate heapGlobal = (v.allocated (m.global heapGlobal)).map fun range =>
      ({ m with stack := below }.setGlobal heapGlobal (.word range.2)).push (.word range.1) := by
  cases v with
  | float x => rw [Machine.allocate, Machine.popWord, h]; rfl
  | word words =>
    cases hheap : m.global heapGlobal with
    | word base => exact Machine.allocate_of_stack h hheap
    | float x =>
      have hsame : { m with stack := below }.global heapGlobal = .float x := hheap
      rw [Machine.allocate, Machine.popWord_of_stack h, ok_bind]
      simp only [hsame]
      rfl

/-! ## Effects -/

/-- Code that takes values off the stack and leaves others.  If it ends on a stack of `takes` values it
ends with `leaves` values, and with other values below it does the same. -/
structure StackEffect (r : Runtime) (takes leaves : Nat) (code : List Instr) : Prop where
  height : ∀ {m m' : Machine}, m.stack.length = takes → m.run r code = .ok m' →
    m'.stack.length = leaves
  frame : ∀ {m : Machine}, m.stack.length = takes → ∀ below,
    (m.above below).run r code = (m.run r code).map (·.above below)

namespace StackEffect

/-- No code does nothing. -/
theorem nil (n : Nat) : StackEffect r n n [] where
  height h hrun := by cases hrun; exact h
  frame _ _ := rfl

/-- **What one piece of code leaves the next one takes.** -/
theorem append (hx : StackEffect r a b x) (hy : StackEffect r b c y) : StackEffect r a c (x ++ y) where
  height h hrun := by
    rw [Machine.run_append] at hrun
    obtain ⟨m₁, hrun₁, hrun⟩ := bind_eq_ok.1 hrun
    exact hy.height (hx.height h hrun₁) hrun
  frame {m} h below := by
    rw [Machine.run_append, Machine.run_append, hx.frame h below]
    cases hrun : m.run r x with
    | error e => rfl
    | ok m₁ => exact hy.frame (hx.height h hrun) below

/-- **Values below those that are taken stay where they are.** -/
theorem under (hx : StackEffect r a b x) (spare : Nat) : StackEffect r (a + spare) (b + spare) x where
  height {m m'} h hrun := by
    obtain ⟨m₀, rest, rfl, h₀, hrest⟩ := Machine.exists_above (m := m) (n := a) (by omega)
    rw [hx.frame h₀] at hrun
    obtain ⟨m₁, hrun₁, rfl⟩ := map_eq_ok.1 hrun
    rw [Machine.stack_above, List.length_append, hx.height h₀ hrun₁]
    omega
  frame {m} h below := by
    obtain ⟨m₀, rest, rfl, h₀, -⟩ := Machine.exists_above (m := m) (n := a) (by omega)
    rw [Machine.above_above, hx.frame h₀, hx.frame h₀]
    cases m₀.run r x with
    | error e => rfl
    | ok m₁ => exact congrArg Except.ok (Machine.above_above m₁ rest below).symm

/-! ## Single instructions -/

/-- A constant is pushed. -/
theorem i32Const (w : UInt32) : StackEffect r 0 1 [.i32Const w] where
  height h hrun := by cases hrun; exact congrArg Nat.succ h
  frame _ _ := rfl

theorem f32Const (w : Binary32) : StackEffect r 0 1 [.f32Const w] where
  height h hrun := by cases hrun; exact congrArg Nat.succ h
  frame _ _ := rfl

/-- The value of a global is pushed. -/
theorem globalGet (name : String) : StackEffect r 0 1 [.globalGet name] where
  height h hrun := by cases hrun; exact congrArg Nat.succ h
  frame _ _ := rfl

/-- The value of a local is pushed, if it has one. -/
theorem localGet (name : String) : StackEffect r 0 1 [.localGet name] where
  height {m m'} h hrun := by
    rw [Machine.run_singleton, Machine.step] at hrun
    split at hrun <;> cases hrun
    exact congrArg Nat.succ h
  frame {m} h below := by
    rw [Machine.run_singleton, Machine.run_singleton, Machine.step, Machine.step]
    have hlocals : (m.above below).locals = m.locals := rfl
    rw [hlocals]
    cases m.locals name <;> rfl

/-- A value is taken for a global. -/
theorem globalSet (name : String) : StackEffect r 1 0 [.globalSet name] where
  height {m m'} h hrun := by
    obtain ⟨stack, globals, locals, memory, calls⟩ := m
    obtain ⟨v, rfl⟩ := List.length_eq_one_iff.1 h
    cases hrun
    rfl
  frame {m} h below := by
    obtain ⟨stack, globals, locals, memory, calls⟩ := m
    obtain ⟨v, rfl⟩ := List.length_eq_one_iff.1 h
    rfl

/-- A value is kept, and put into a local besides. -/
theorem localTee (name : String) : StackEffect r 1 1 [.localTee name] where
  height {m m'} h hrun := by
    obtain ⟨stack, globals, locals, memory, calls⟩ := m
    obtain ⟨v, rfl⟩ := List.length_eq_one_iff.1 h
    cases hrun
    rfl
  frame {m} h below := by
    obtain ⟨stack, globals, locals, memory, calls⟩ := m
    obtain ⟨v, rfl⟩ := List.length_eq_one_iff.1 h
    rfl

/-- An address and a value are taken. -/
theorem store (type : NumberType) (offset : UInt32) : StackEffect r 2 0 [.store type offset] where
  height {m m'} h hrun := by
    obtain ⟨stack, globals, locals, memory, calls⟩ := m
    obtain ⟨v, base, rfl⟩ := List.length_eq_two.1 h
    cases base with
    | word w => cases hrun; rfl
    | float x => cases hrun
  frame {m} h below := by
    obtain ⟨stack, globals, locals, memory, calls⟩ := m
    obtain ⟨v, base, rfl⟩ := List.length_eq_two.1 h
    cases base <;> rfl

/-- Two numbers are taken for one. -/
theorem arithmetic (type : NumberType) (operation : Arithmetic) :
    StackEffect r 2 1 [.arithmetic type operation] where
  height {m m'} h hrun := by
    obtain ⟨v, u, hstack⟩ := List.length_eq_two.1 h
    rw [Machine.run_singleton, Machine.step, Machine.operate_eq hstack] at hrun
    obtain ⟨w, -, rfl⟩ := map_eq_ok.1 hrun
    rfl
  frame {m} h below := by
    obtain ⟨v, u, hstack⟩ := List.length_eq_two.1 h
    have habove : (m.above below).stack = v :: u :: below := by rw [Machine.stack_above, hstack]; rfl
    rw [Machine.run_singleton, Machine.run_singleton, Machine.step, Machine.step,
      Machine.operate_eq hstack, Machine.operate_eq habove]
    cases operation.onValues r.floats type u v <;> rfl

/-- The allocator takes a number of words and leaves their address. -/
theorem allocator : StackEffect r 1 1 [.call r.allocator] where
  height {m m'} h hrun := by
    obtain ⟨v, hstack⟩ := List.length_eq_one_iff.1 h
    rw [Machine.run_singleton, Machine.step, if_pos rfl, Machine.allocate_eq hstack] at hrun
    obtain ⟨range, -, rfl⟩ := map_eq_ok.1 hrun
    rfl
  frame {m} h below := by
    obtain ⟨v, hstack⟩ := List.length_eq_one_iff.1 h
    have habove : (m.above below).stack = v :: below := by rw [Machine.stack_above, hstack]; rfl
    have hglobal : (m.above below).global r.heapGlobal = m.global r.heapGlobal := rfl
    rw [Machine.run_singleton, Machine.run_singleton, Machine.step, Machine.step, if_pos rfl, if_pos rfl,
      Machine.allocate_eq hstack, Machine.allocate_eq habove, hglobal]
    cases Value.allocated v (m.global r.heapGlobal) <;> rfl

end StackEffect

/-! ## Code that takes nothing -/

/-- Code that takes nothing off the stack and leaves a number of values on it. -/
abbrev Leaves (r : Runtime) (count : Nat) (code : List Instr) : Prop := StackEffect r 0 count code

namespace Leaves

theorem append (hx : Leaves r a x) (hy : Leaves r b y) : Leaves r (a + b) (x ++ y) := by
  have hunder : StackEffect r (0 + a) (b + a) y := hy.under a
  rw [Nat.zero_add, Nat.add_comm b a] at hunder
  exact StackEffect.append hx hunder

/-- Some of the values are taken again. -/
theorem consumed (hx : Leaves r (b + a) x) (hy : StackEffect r b c y) : Leaves r (c + a) (x ++ y) :=
  StackEffect.append hx (hy.under a)

/-- **Code that takes nothing runs on every stack as on an empty one**, and puts its values on top. -/
theorem run_eq (hx : Leaves r a x) (m : Machine) :
    m.run r x = (m.cleared.run r x).map (·.above m.stack) := by
  have hframe : (m.cleared.above m.stack).run r x = (m.cleared.run r x).map (·.above m.stack) :=
    hx.frame rfl m.stack
  rwa [Machine.cleared_above] at hframe

/-- Code that takes nothing leaves the stack below its values as it was. -/
theorem stack_eq (hx : Leaves r a x) {m m' : Machine} (h : m.run r x = .ok m') :
    ∃ values, m'.stack = values ++ m.stack ∧ values.length = a := by
  rw [hx.run_eq] at h
  obtain ⟨m₁, h₁, rfl⟩ := map_eq_ok.1 h
  exact ⟨m₁.stack, rfl, hx.height rfl h₁⟩

end Leaves

end Chainlet
