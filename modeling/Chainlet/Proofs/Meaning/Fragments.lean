import Chainlet.Proofs.Code.Chain
import Chainlet.Proofs.Meaning.Simulation

/-!
# Proofs/Meaning/Fragments — pieces of code and what they mean

Code `Implements` a meaning when it works on words alone and every run of it, from any stack, follows
that meaning.  Code `Stores` a meaning when it does so with the base address in the scratch local.
The lemmas put pieces together as the generator does: an operator behind its operands, a write
behind a value, a store behind an entry, stores behind an allocation.
-/

namespace Chainlet

variable {o : Options} {floats : FloatUnit} {α : Type} {view : α → List UInt32 × Store}

/-- Code of words whose every run follows a meaning. -/
structure Implements (o : Options) (floats : FloatUnit) {α : Type}
    (view : α → List UInt32 × Store) (meaning : Store → Except Halt α) (code : List Instr) :
    Prop where
  noFloat : Instr.pushesFloat code = false
  follows : ∀ {m : Machine} {s : Store}, m.Represents o.heapGlobal s →
    Follows o.heapGlobal m.stack view (meaning s) (m.run (o.runtime floats) code)

theorem Implements.of_eq {meaning meaning' : Store → Except Halt α} {code : List Instr}
    (h : Implements o floats view meaning code) (heq : ∀ s, meaning' s = meaning s) :
    Implements o floats view meaning' code := by
  obtain rfl : meaning' = meaning := funext heq
  exact h

/-- Code of words whose every run with a base in the scratch local follows a meaning. -/
structure Stores (o : Options) (floats : FloatUnit) (base : UInt32)
    (meaning : Store → Except Halt Store) (code : List Instr) : Prop where
  noFloat : Instr.pushesFloat code = false
  follows : ∀ {m : Machine} {s : Store}, m.locals o.scratch = some (.word base) →
    m.Represents o.heapGlobal s →
    Follows o.heapGlobal m.stack leavesNothing (meaning s) (m.run (o.runtime floats) code)

theorem Stores.of_eq {base : UInt32} {meaning meaning' : Store → Except Halt Store}
    {code : List Instr} (h : Stores o floats base meaning code)
    (heq : ∀ s, meaning' s = meaning s) : Stores o floats base meaning' code := by
  obtain rfl : meaning' = meaning := funext heq
  exact h

/-! ## Words and globals -/

theorem implements_word (w : UInt32) :
    Implements o floats leavesWord (fun s => .ok (w, s)) [.i32Const w] where
  noFloat := rfl
  follows hm := .done rfl (hm.push _)

theorem implements_globalGet {name : String} (h : name ≠ o.heapGlobal) :
    Implements o floats leavesWord (fun s => .ok (s.globals name, s)) [.globalGet name] where
  noFloat := rfl
  follows {m s} hm := by
    have hrun : m.run (o.runtime floats) [.globalGet name] = .ok (m.push (.word (s.globals name))) := by
      rw [Machine.run_cons, Machine.step, hm.global name h]
      rfl
    rw [hrun]
    exact .done rfl (hm.push _)

/-! ## Composition -/

theorem Implements.block {meaning : Store → Except Halt α} {code : List Instr}
    (h : Implements o floats view meaning code) :
    Implements o floats view meaning [.block code] where
  noFloat := by simp [Instr.pushesFloat, Instr.hasFloat, h.noFloat]
  follows {m s} hm := by
    have hrun : m.run (o.runtime floats) [.block code] = m.run (o.runtime floats) code := by
      rw [Machine.run_cons, Machine.step]
      cases m.run (o.runtime floats) code <;> rfl
    rw [hrun]
    exact h.follows hm

/-- Code that leaves nothing, and then other code. -/
theorem Implements.append {first : Store → Except Halt Store} {second : Store → Except Halt α}
    {a b : List Instr} (ha : Implements o floats leavesNothing first a)
    (hb : Implements o floats view second b) :
    Implements o floats view (fun s => first s >>= second) (a ++ b) where
  noFloat := by simp [Instr.pushesFloat_append, ha.noFloat, hb.noFloat]
  follows {m s} hm := by
    rw [Machine.run_append]
    refine (ha.follows hm).bind fun s' m' _ hstack hm' => ?_
    have hsame : m'.stack = m.stack := hstack
    rw [← hsame]
    exact hb.follows hm'

/-- A write to a global takes the value before it away. -/
theorem Implements.assign {meaning : Store → Except Halt (UInt32 × Store)} {code : List Instr}
    {name : String} (h : Implements o floats leavesWord meaning code) (hne : name ≠ o.heapGlobal) :
    Implements o floats leavesNothing (fun s => do
      let (w, s) ← meaning s
      pure (s.assign name w)) (code ++ [.globalSet name]) where
  noFloat := by
    simp [Instr.pushesFloat_append, h.noFloat, Instr.pushesFloat, Instr.hasFloat]
  follows {m s} hm := by
    rw [Machine.run_append]
    refine (h.follows hm).bind ?_
    rintro ⟨w, s'⟩ m' - hstack hm'
    have hstep : m'.run (o.runtime floats) [.globalSet name]
        = .ok (Machine.setGlobal { m' with stack := m.stack } name (.word w)) := by
      rw [Machine.run_cons, Machine.step, Machine.pop_of_stack hstack]
      rfl
    rw [hstep]
    exact .done rfl ((hm'.withStack _).setGlobal hne w)

/-- The result of an operator is what its operation computes. -/
theorem operatorResult_of_operation? {operator : String} {operation : Arithmetic}
    (h : operation? operator = some operation) (a b : UInt32) :
    operatorResult a operator b =
      match operation.onWords a b with
      | some w => .ok w
      | none => .error .trap := by
  unfold operation? at h
  split at h <;> cases h <;> rfl

/-- An operator behind the code of its operands. -/
theorem Implements.operator {left right : Store → Except Halt (UInt32 × Store)}
    {l r code : List Instr} {operator : String} (hl : Implements o floats leavesWord left l)
    (hr : Implements o floats leavesWord right r) (hcode : operatorCode operator l r = .ok code) :
    Implements o floats leavesWord (fun s => do
      let (a, s) ← left s
      let (b, s) ← right s
      let w ← operatorResult a operator b
      pure (w, s)) code := by
  unfold operatorCode at hcode
  split at hcode
  case h_2 => cases hcode
  case h_1 operation hop =>
    cases hcode
    simp only [hl.noFloat, hr.noFloat, Bool.or_self, Bool.false_eq_true, if_false]
    refine ⟨?_, fun {m s} hm => ?_⟩
    · simp [Instr.pushesFloat_append, hl.noFloat, hr.noFloat, Instr.pushesFloat, Instr.hasFloat]
    · rw [Machine.run_append, Machine.run_append, bind_assoc]
      refine (hl.follows hm).bind ?_
      rintro ⟨a, s₁⟩ m₁ - hstack₁ hm₁
      refine (hr.follows hm₁).bind ?_
      rintro ⟨b, s₂⟩ m₂ - hstack₂ hm₂
      have hstack : m₂.stack = .word b :: .word a :: m.stack := hstack₂.trans (by rw [hstack₁]; rfl)
      rw [Machine.run_cons, Machine.step, Machine.operate_of_stack hstack,
        operatorResult_of_operation? hop]
      cases operation.onWords a b with
      | none => exact .trapped
      | some w => exact .done rfl ((hm₂.withStack _).push _)

/-! ## Entries of composite literals -/

theorem stores_nil (base : UInt32) : Stores o floats base .ok [] where
  noFloat := rfl
  follows _ hm := .done rfl hm

/-- One more entry in front: its value does not touch the scratch local, so the base is still there
for the entries after it. -/
theorem Stores.cons {base offset : UInt32} {type : NumberType}
    {value : Store → Except Halt (UInt32 × Store)} {more : Store → Except Halt Store}
    {code rest : List Instr} (hvalue : Implements o floats leavesWord value code)
    (hkeeps : Instr.writesLocal o.scratch code = false) (hmore : Stores o floats base more rest) :
    Stores o floats base (fun s => do
      let (w, s) ← value s
      more (s.write (base.toNat + offset.toNat) w))
      (.localGet o.scratch :: code ++ .store type offset :: rest) where
  noFloat := by
    simp [Instr.pushesFloat_append, hvalue.noFloat, hmore.noFloat, Instr.pushesFloat,
      Instr.hasFloat]
  follows {m s} hbase hm := by
    have hget : m.run (o.runtime floats) (.localGet o.scratch :: code ++ .store type offset :: rest)
        = (m.push (.word base)).run (o.runtime floats) (code ++ .store type offset :: rest) := by
      rw [List.cons_append, Machine.run_cons, Machine.step, hbase]
      rfl
    rw [hget, Machine.run_append]
    refine (hvalue.follows (hm.push _)).bind ?_
    rintro ⟨w, s'⟩ m' hrun hstack hm'
    rw [Machine.run_cons, Machine.step, Machine.store_of_stack hstack]
    refine hmore.follows ?_ ((hm'.withStack _).setMemory _ w)
    exact (Machine.locals_run code hkeeps hrun).trans hbase

/-- An allocation leaves the address of the new words on the stack and in the scratch local. -/
theorem run_allocation (floats : FloatUnit) {m : Machine} {s : Store}
    (hm : m.Represents o.heapGlobal s) (words : Nat) (rest : List Instr) :
    ∃ m' : Machine, m.run (o.runtime floats) (allocation o (UInt32.ofNat words) ++ rest)
        = m'.run (o.runtime floats) rest ∧
      m'.stack = .word s.heap :: m.stack ∧ m'.locals o.scratch = some (.word s.heap) ∧
      m'.Represents o.heapGlobal (s.allocate words) := by
  have hcall : (m.push (.word (UInt32.ofNat words))).step (o.runtime floats) (.call o.allocator)
      = .ok ((m.setGlobal o.heapGlobal (.word (s.heap + 4 * UInt32.ofNat words))).push
          (.word s.heap)) := by
    have hstack : (m.push (.word (UInt32.ofNat words))).stack
        = .word (UInt32.ofNat words) :: m.stack := rfl
    have hheap : (m.push (.word (UInt32.ofNat words))).global o.heapGlobal = .word s.heap := hm.heap
    have hname : o.allocator = (o.runtime floats).allocator := rfl
    rw [Machine.step, if_pos hname]
    exact Machine.allocate_of_stack hstack hheap
  refine ⟨((m.setGlobal o.heapGlobal (.word (s.heap + 4 * UInt32.ofNat words))).push
    (.word s.heap)).setLocal o.scratch (.word s.heap), ?_, rfl, if_pos rfl,
    ((hm.allocate words).push _).setLocal _ _⟩
  rw [allocation, List.cons_append, List.cons_append, List.cons_append, List.nil_append,
    Machine.run_cons, Machine.step, ok_bind, Machine.run_cons, hcall, ok_bind, Machine.run_cons]
  rfl

/-- Stores behind an allocation: the address of the literal is left. -/
theorem Implements.allocated {stores : UInt32 → Store → Except Halt Store} {code : List Instr}
    (words : Nat) (h : ∀ base, Stores o floats base (stores base) code) :
    Implements o floats leavesWord (fun s => do
      let s' ← stores s.heap (s.allocate words)
      pure (s.heap, s')) (allocation o (UInt32.ofNat words) ++ code) where
  noFloat := by
    simp [(h 0).noFloat, allocation, Instr.pushesFloat, Instr.hasFloat]
  follows {m s} hm := by
    obtain ⟨m₁, hrun, hstack, hbase, hm₁⟩ := run_allocation floats hm words code
    rw [hrun]
    rw [← bind_pure (m₁.run (o.runtime floats) code)]
    refine ((h s.heap).follows hbase hm₁).bind fun s' m' _ hstack' hm' => .done ?_ hm'
    rw [hstack', hstack]
    rfl

end Chainlet
