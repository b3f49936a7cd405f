import Chainlet.Proofs.Stack.Straight

/-!
# Proofs/Stack/Assignment — what an assignment leaves on the stack

A write to a global takes one value, the last one that the code before it pushed.  Where that code
pushed more, the others stay behind: **an assignment without calls and blocks keeps the stack exactly
when there is no array among the operands of its value** (`assignment_stack`).
-/

namespace Chainlet

variable {o : Options}

theorem Item.code_assignment {target : Path} {value : Expression} {span : Option Span}
    {code : List Instr} (h : (Item.statement (.assignment target value span)).code o = .ok code) :
    ∃ pushed, value.code o = .ok pushed ∧ code = pushed ++ [.globalSet target.flatten] := by
  rw [Item.code, codeBefore_nil] at h
  obtain ⟨pushed, hpushed, h⟩ := bind_eq_ok.1 h
  exact ⟨pushed, hpushed, (Except.ok.inj h).symm⟩

/-- **What an assignment leaves on the stack.**  The code of the value, which has no call and no block,
pushes one value for each array among its operands and one more; the write to the global takes the last
one, and the others stay behind.  So the stack is the same as before exactly when there is no array among
the operands.  What was on the stack before plays no part in it. -/
theorem assignment_stack {o : Options} (floats : FloatUnit) {target : Path} {value : Expression}
    {span : Option Span} {code : List Instr} (hstraight : value.isStraight = true)
    (h : (Item.statement (.assignment target value span)).code o = .ok code) :
    ∃ pushed, value.code o = .ok pushed ∧
      (∀ m : Machine, m.run (o.runtime floats) code
        = (m.cleared.run (o.runtime floats) code).map (·.above m.stack)) ∧
      ∀ m m' : Machine, m.run (o.runtime floats) code = .ok m' →
        (∃ m₁ v left, m.run (o.runtime floats) pushed = .ok m₁ ∧
          m₁.stack = v :: left ++ m.stack ∧ left.length = value.arrays ∧
          m'.stack = left ++ m.stack ∧ m'.global target.flatten = v) ∧
        (m'.stack = m.stack ↔ value.arrays = 0) := by
  obtain ⟨pushed, hpushed, rfl⟩ := Item.code_assignment h
  have hleaves : Leaves (o.runtime floats) (value.arrays + 1) pushed := value.leaves hstraight hpushed
  have hset : Leaves (o.runtime floats) (0 + value.arrays) (pushed ++ [.globalSet target.flatten]) :=
    Leaves.consumed (b := 1) (by rwa [Nat.add_comm 1]) (.globalSet target.flatten)
  refine ⟨pushed, hpushed, fun m => hset.run_eq m, fun m m' hrun => ?_⟩
  rw [Machine.run_append] at hrun
  obtain ⟨m₁, hrun₁, hwrite⟩ := bind_eq_ok.1 hrun
  obtain ⟨values, hstack, hlength⟩ := hleaves.stack_eq hrun₁
  obtain ⟨v, left, rfl⟩ := List.exists_cons_of_length_eq_add_one hlength
  rw [Machine.run_singleton, Machine.step, Machine.pop_of_stack hstack] at hwrite
  cases hwrite
  have hleft : left.length = value.arrays := Nat.succ.inj hlength
  refine ⟨⟨m₁, v, left, hrun₁, hstack, hleft, rfl, ?_⟩, ?_⟩
  · rw [Machine.global_setGlobal, if_pos rfl]
  · rw [← hleft, List.length_eq_zero_iff]
    exact List.append_left_eq_self

/-- `x = ${ a = 1 } + 2` -/
def objectAssigned : Item :=
  .statement (.assignment ⟨["x"], none⟩ (.binary
    (.operand (.literal (.object [⟨⟨"a", none, none⟩, .operand (.literal (.int "1" .decimal none)), none⟩]
      none))) "+" (.literal (.int "2" .decimal none)) none) none)

/-- The sum is written, and the stack is as before. -/
theorem objectAssigned_stack : ∃ code, objectAssigned.code {} = .ok code ∧
    ∀ (floats : FloatUnit) (s : Store), ∃ m',
      (Machine.ofStore "heap" s).run (Options.runtime {} floats) code = .ok m' ∧ m'.stack = [] := by
  refine ⟨_, rfl, fun floats s => ⟨_, rfl, ?_⟩⟩
  obtain ⟨_, -, -, hstack⟩ := assignment_stack floats (by decide)
    (show objectAssigned.code {} = .ok _ from rfl)
  exact (hstack (Machine.ofStore "heap" s) _ rfl).2.2 rfl

/-- `$[1, 2]` -/
def arrayValue : Expression :=
  .operand (.literal (.array
    [.operand (.literal (.int "1" .decimal none)), .operand (.literal (.int "2" .decimal none))] none))

/-- `x = $[1, 2]` writes the length of the array, and its address stays on the stack. -/
theorem arrayValue_stack : arrayValue.isStraight = true ∧ ∃ code,
    (Item.statement (.assignment ⟨["x"], none⟩ arrayValue none)).code {} = .ok code ∧
    ∀ (floats : FloatUnit) (s : Store), ∃ m',
      (Machine.ofStore "heap" s).run (Options.runtime {} floats) code = .ok m' ∧
        m'.stack = [.word s.heap] ∧ m'.global "x" = .word 2 :=
  ⟨by decide, _, rfl, fun _ _ => ⟨_, rfl, rfl, rfl⟩⟩

end Chainlet
