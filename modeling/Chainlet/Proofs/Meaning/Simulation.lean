import Chainlet.Module.Options
import Chainlet.Proofs.Meaning.Basic

/-!
# Proofs/Meaning/Simulation — a machine that follows an evaluation

A machine `Represents` a store when its globals, its heap pointer and its memory are those of the
store.  A run `Follows` an evaluation when both end, the machine with the values of the evaluation
on top of what was on its stack and representing the store reached, or when both trap.
`Follows.bind` composes the two sides step by step.
-/

namespace Chainlet

/-- The runtime that the options of a module name. -/
def Options.runtime (o : Options) (floats : FloatUnit) : Runtime :=
  ⟨o.allocator, o.heapGlobal, floats⟩

/-! ## Machines and stores -/

/-- A machine whose globals, heap pointer and memory are those of a store. -/
structure Machine.Represents (heapGlobal : String) (m : Machine) (s : Store) : Prop where
  global : ∀ g, g ≠ heapGlobal → m.global g = .word (s.globals g)
  heap : m.global heapGlobal = .word s.heap
  memory : ∀ a, m.memory a = (s.memory a).map .word

namespace Machine

@[simp] theorem global_push (m : Machine) (v : Value) (g : String) :
    (m.push v).global g = m.global g := rfl

@[simp] theorem global_setLocal (m : Machine) (name : String) (v : Value) (g : String) :
    (m.setLocal name v).global g = m.global g := rfl

@[simp] theorem global_setMemory (m : Machine) (address : Nat) (v : Value) (g : String) :
    (m.setMemory address v).global g = m.global g := rfl

theorem global_setGlobal (m : Machine) (name : String) (v : Value) (g : String) :
    (m.setGlobal name v).global g = if g = name then v else m.global g := by
  by_cases h : g = name <;> simp [global, setGlobal, h]

/-- The stack plays no part in what a machine represents. -/
theorem Represents.withStack {heapGlobal : String} {m : Machine} {s : Store}
    (h : m.Represents heapGlobal s) (stack : List Value) :
    Represents heapGlobal { m with stack := stack } s :=
  ⟨h.global, h.heap, h.memory⟩

theorem Represents.push {heapGlobal : String} {m : Machine} {s : Store}
    (h : m.Represents heapGlobal s) (v : Value) : (m.push v).Represents heapGlobal s :=
  h.withStack _

theorem Represents.setLocal {heapGlobal : String} {m : Machine} {s : Store}
    (h : m.Represents heapGlobal s) (name : String) (v : Value) :
    (m.setLocal name v).Represents heapGlobal s :=
  ⟨h.global, h.heap, h.memory⟩

/-- An assignment to a global other than the heap pointer. -/
theorem Represents.setGlobal {heapGlobal name : String} {m : Machine} {s : Store}
    (h : m.Represents heapGlobal s) (hne : name ≠ heapGlobal) (w : UInt32) :
    (m.setGlobal name (.word w)).Represents heapGlobal (s.assign name w) where
  global g hg := by
    rw [global_setGlobal, h.global g hg]
    by_cases hn : g = name <;> simp [Store.assign, hn]
  heap := by rw [global_setGlobal, if_neg hne.symm]; exact h.heap
  memory := h.memory

theorem Represents.setMemory {heapGlobal : String} {m : Machine} {s : Store}
    (h : m.Represents heapGlobal s) (address : Nat) (w : UInt32) :
    (m.setMemory address (.word w)).Represents heapGlobal (s.write address w) where
  global := h.global
  heap := h.heap
  memory a := by
    by_cases ha : a = address <;> simp [Machine.setMemory, Store.write, ha, h.memory a]

/-- The heap pointer moves past the words taken. -/
theorem Represents.allocate {heapGlobal : String} {m : Machine} {s : Store}
    (h : m.Represents heapGlobal s) (words : Nat) :
    (m.setGlobal heapGlobal (.word (s.heap + 4 * UInt32.ofNat words))).Represents heapGlobal
      (s.allocate words) where
  global g hg := by rw [global_setGlobal, if_neg hg]; exact h.global g hg
  heap := by
    rw [global_setGlobal, if_pos rfl, Store.allocate, UInt32.ofNat_mul]
    rfl
  memory := h.memory

/-- The machine that starts from a store with an empty stack. -/
def ofStore (heapGlobal : String) (s : Store) : Machine where
  stack := []
  globals g := some (.word (if g = heapGlobal then s.heap else s.globals g))
  locals _ := none
  memory a := (s.memory a).map .word
  calls := []

/-- Every store is where some machine starts from. -/
theorem ofStore_represents (heapGlobal : String) (s : Store) :
    (ofStore heapGlobal s).Represents heapGlobal s where
  global _ hg := congrArg Value.word (if_neg hg)
  heap := congrArg Value.word (if_pos rfl)
  memory _ := rfl

end Machine

/-! ## Runs that follow an evaluation -/

/-- A run that ends as an evaluation does: with the values that `view` finds in the result on top of
`below`, representing the store found there, or in a trap. -/
inductive Follows {α : Type} (heapGlobal : String) (below : List Value)
    (view : α → List UInt32 × Store) : Except Halt α → Except Halt Machine → Prop where
  | done {a : α} {m : Machine} (stack : m.stack = (view a).1.map .word ++ below)
      (represents : m.Represents heapGlobal (view a).2) :
      Follows heapGlobal below view (.ok a) (.ok m)
  | trapped : Follows heapGlobal below view (.error .trap) (.error .trap)

/-- The result of an expression: one word. -/
def leavesWord : UInt32 × Store → List UInt32 × Store
  | (w, s) => ([w], s)

/-- The result of stores: no word. -/
def leavesNothing (s : Store) : List UInt32 × Store := ([], s)

/-- **What follows step by step follows as a whole.** -/
theorem Follows.bind {α β : Type} {heapGlobal : String} {below below' : List Value}
    {view : α → List UInt32 × Store} {view' : β → List UInt32 × Store}
    {x : Except Halt α} {y : Except Halt Machine} {f : α → Except Halt β}
    {g : Machine → Except Halt Machine} (h : Follows heapGlobal below view x y)
    (next : ∀ a m, y = .ok m → m.stack = (view a).1.map .word ++ below →
      m.Represents heapGlobal (view a).2 → Follows heapGlobal below' view' (f a) (g m)) :
    Follows heapGlobal below' view' (x >>= f) (y >>= g) := by
  cases h with
  | done stack represents => exact next _ _ rfl stack represents
  | trapped => exact .trapped

/-! ## Single instructions -/

namespace Machine

variable {m : Machine} {s : Store} {w : UInt32} {v : Value} {below : List Value}

theorem pop_of_stack (h : m.stack = v :: below) : m.pop = .ok (v, { m with stack := below }) := by
  rw [pop, h]

theorem popWord_of_stack (h : m.stack = .word w :: below) :
    m.popWord = .ok (w, { m with stack := below }) := by
  rw [popWord, h]

/-- An operation on two words pushes their result or traps. -/
theorem operate_of_stack {a b : UInt32} {u : FloatUnit} {operation : Arithmetic}
    (h : m.stack = .word b :: .word a :: below) :
    m.operate u operation .i32 =
      match operation.onWords a b with
      | some w => .ok (push { m with stack := below } (.word w))
      | none => .error .trap := by
  rw [operate, popWord_of_stack h]
  rfl

/-- The allocator replaces a number of words by the heap pointer. -/
theorem allocate_of_stack {heapGlobal : String} {base : UInt32} (h : m.stack = .word w :: below)
    (hheap : m.global heapGlobal = .word base) :
    m.allocate heapGlobal =
      .ok (({ m with stack := below }.setGlobal heapGlobal (.word (base + 4 * w))).push
        (.word base)) := by
  rw [allocate, popWord_of_stack h, ok_bind]
  have : { m with stack := below }.global heapGlobal = .word base := hheap
  simp only [this]
  rfl

theorem store_of_stack {base offset : UInt32} (h : m.stack = v :: .word base :: below) :
    m.store offset =
      .ok ({ m with stack := below }.setMemory (base.toNat + offset.toNat) v) := by
  rw [store, pop_of_stack h]
  rfl

end Machine

end Chainlet
