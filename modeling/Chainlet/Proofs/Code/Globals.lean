import Chainlet.Proofs.Code.Units
import Chainlet.Proofs.Meaning.Simulation

/-!
# Proofs/Code/Globals — the globals that code assigns

Code assigns exactly the globals that the assignments it comes from name (`Emits.sets_eq`), and a run
changes no other global but the heap pointer, which the allocator moves (`Machine.global_run`).

The heap pointer has no name space of its own.  A program whose assignments all have other names leaves
it to the allocator, and **a program that assigns its name is compiled to an assignment of it**
(`Program.sets_heapGlobal_iff`).
-/

namespace Chainlet

/-- The global that a construct assigns. -/
def Construct.global? : Construct → Option String
  | assignment target => some target.flatten
  | _ => none

/-! ## Assignments -/

variable {o : Options} {cs : List Construct} {code : List Instr} {entries : List StoredEntry}

/-- **Code assigns the globals that the assignments it comes from name**, in their order. -/
theorem Emits.sets_eq (h : Emits o cs code) : Instr.sets code = cs.filterMap Construct.global? := by
  induction h with
  | nil | word | float | path | call | operator | assignment => rfl
  | append _ _ ih ih' => rw [Instr.sets_append, ih, ih', List.filterMap_append]
  | block _ ih => rw [Instr.sets_block, ih]
  | @composite value entries code stores _ ih =>
    obtain ⟨words, closing, rfl, hclosing⟩ := stores.shape
    have hnone : Instr.sets closing = [] := by obtain rfl | ⟨count, rfl⟩ := hclosing <;> rfl
    have hentry : ∀ entry : StoredEntry, Instr.sets (entry.code o.scratch) = Instr.sets entry.value :=
      StoredEntry.filterMap_code Instr.set? (fun _ _ => rfl) o.scratch
    rw [Instr.sets_append, Instr.sets_append, hnone, List.append_nil, Instr.sets_flatMap,
      stores.constructs_eq, List.filterMap_cons_none rfl, List.filterMap_flatMap]
    exact List.flatMap_congr fun entry hmem => (hentry entry).trans (ih entry hmem)

/-! ## Runs

Only an assignment and the allocator change a global. -/

namespace Machine

theorem global_of_stack {m m' : Machine} {stack : List Value} (h : m' = { m with stack := stack })
    (name : String) : m'.global name = m.global name := by
  rw [h]
  rfl

theorem pop_eq {m m' : Machine} {v : Value} (h : m.pop = .ok (v, m')) :
    m' = { m with stack := m'.stack } := by
  unfold pop at h
  split at h
  · cases h; rfl
  · cases h

theorem popWord_eq {m m' : Machine} {w : UInt32} (h : m.popWord = .ok (w, m')) :
    m' = { m with stack := m'.stack } := by
  unfold popWord at h
  split at h
  · cases h; rfl
  · cases h

/-- An operation changes the stack alone. -/
theorem operate_keeps {m m' : Machine} {u : FloatUnit} {operation : Arithmetic} {type : NumberType}
    (h : m.operate u operation type = .ok m') : m' = { m with stack := m'.stack } := by
  cases type with
  | i32 =>
    obtain ⟨⟨b, m₁⟩, h₁, h⟩ := bind_eq_ok.1 h
    obtain ⟨⟨a, m₂⟩, h₂, h⟩ := bind_eq_ok.1 h
    dsimp only at h
    split at h
    · cases h
      rw [popWord_eq h₂, popWord_eq h₁]
      rfl
    · cases h
  | f32 =>
    obtain ⟨⟨b, m₁⟩, h₁, h⟩ := bind_eq_ok.1 h
    obtain ⟨⟨a, m₂⟩, h₂, h⟩ := bind_eq_ok.1 h
    cases h
    rw [pop_eq h₂, pop_eq h₁]
    rfl

mutual

theorem global_step {r : Runtime} {name : String} : ∀ (i : Instr) {m m' : Machine},
    name ∉ Instr.sets [i] → (name = r.heapGlobal → r.allocator ∉ Instr.calls [i]) →
      step r i m = .ok m' → m'.global name = m.global name
  | .i32Const _, _, _, _, _, h | .f32Const _, _, _, _, _, h | .globalGet _, _, _, _, _, h => by
    cases h; rfl
  | .arithmetic .., _, _, _, _, h => global_of_stack (operate_keeps h) name
  | .globalSet target, _, _, hsets, _, h => by
    obtain ⟨⟨v, m₁⟩, hpop, h⟩ := bind_eq_ok.1 h
    cases h
    have hne : name ≠ target := fun heq => hsets (List.mem_singleton.2 heq)
    rw [global_setGlobal, if_neg hne]
    exact global_of_stack (pop_eq hpop) name
  | .localGet _, _, _, _, _, h => by
    unfold step at h
    split at h
    · cases h; rfl
    · cases h
  | .localTee _, _, _, _, _, h => by
    unfold step at h
    split at h
    · cases h; rfl
    · cases h
  | .call callee, m, _, _, hcalls, h => by
    unfold step at h
    split at h
    · next hallocator =>
      obtain ⟨⟨words, m₁⟩, hpop, h⟩ := bind_eq_ok.1 h
      dsimp only at h
      split at h
      · cases h
        have hne : name ≠ r.heapGlobal := fun heq => hcalls heq (List.mem_singleton.2 hallocator.symm)
        rw [global_push, global_setGlobal, if_neg hne]
        exact global_of_stack (popWord_eq hpop) name
      · cases h
    · cases h; rfl
  | .store .., _, _, _, _, h => by
    obtain ⟨⟨v, m₁⟩, hpop, h⟩ := bind_eq_ok.1 h
    obtain ⟨⟨base, m₂⟩, hbase, h⟩ := bind_eq_ok.1 h
    cases h
    exact (global_of_stack (popWord_eq hbase) name).trans (global_of_stack (pop_eq hpop) name)
  | .block body, _, _, hsets, hcalls, h => by
    rw [step] at h
    rw [Instr.sets_block] at hsets
    rw [Instr.calls_block] at hcalls
    exact global_run body hsets hcalls h

/-- **Code keeps the globals that it does not assign**, and the heap pointer if it does not call the
allocator either. -/
theorem global_run {r : Runtime} {name : String} : ∀ (code : List Instr) {m m' : Machine},
    name ∉ Instr.sets code → (name = r.heapGlobal → r.allocator ∉ Instr.calls code) →
      run r code m = .ok m' → m'.global name = m.global name
  | [], _, _, _, _, h => by cases h; rfl
  | i :: is, _, _, hsets, hcalls, h => by
    rw [← List.singleton_append, Instr.sets_append, List.mem_append, not_or] at hsets
    rw [← List.singleton_append, Instr.calls_append, List.mem_append, not_or] at hcalls
    obtain ⟨m₁, h₁, h⟩ := bind_eq_ok.1 ((run_cons ..).symm.trans h)
    exact (global_run is hsets.2 (fun heq => (hcalls heq).2) h).trans
      (global_step i hsets.1 (fun heq => (hcalls heq).1) h₁)

end

end Machine

/-! ## The heap pointer -/

/-- The globals that the units of a program assign are those that its assignments name. -/
theorem exists_sets_iff {p : Program} {md : Module} (h : p.module o = .ok md) (name : String) :
    (∃ u ∈ md.units, name ∈ Instr.sets u.instructions)
      ↔ ∃ target, .assignment target ∈ p.constructs ∧ target.flatten = name := by
  obtain ⟨units, hunits, h⟩ := bind_eq_ok.1 h
  cases h
  have hnames : ∀ cs : List Construct, name ∈ cs.filterMap Construct.global?
      ↔ ∃ target, .assignment target ∈ cs ∧ target.flatten = name := by
    intro cs
    rw [List.mem_filterMap]
    constructor
    · rintro ⟨c, hc, hname⟩
      cases c with
      | assignment target => exact ⟨target, hc, Option.some.inj hname⟩
      | operator | literal | nestedDefinition => cases hname
    · rintro ⟨target, hc, rfl⟩
      exact ⟨.assignment target, hc, rfl⟩
  constructor
  · rintro ⟨u, hu, hname⟩
    obtain ⟨e, he, hunit⟩ := (mem_unitsOf_iff hunits u).1 hu
    obtain ⟨scratch, -, hemits⟩ := Element.unit_emits hunit
    rw [hemits.sets_eq] at hname
    obtain ⟨target, hmem, heq⟩ := (hnames _).1 hname
    exact ⟨target, List.mem_flatMap.2 ⟨e, he, hmem⟩, heq⟩
  · rintro ⟨target, hmem, heq⟩
    obtain ⟨e, he, hmem⟩ := List.mem_flatMap.1 hmem
    obtain ⟨comment, rfl⟩ | ⟨u, hu, hunit⟩ := Element.exists_unit hunits he
    · cases hmem
    · obtain ⟨scratch, -, hemits⟩ := Element.unit_emits hunit
      exact ⟨u, hu, hemits.sets_eq ▸ (hnames _).2 ⟨target, hmem, heq⟩⟩

/-- **The heap pointer is assigned exactly by the programs that assign its name.**  In all others the
units change it only through calls of the allocator: no piece of their code without one does. -/
theorem Program.sets_heapGlobal_iff {o : Options} {p : Program} {md : Module}
    (h : p.module o = .ok md) :
    ((∃ u ∈ md.units, md.heapGlobal ∈ Instr.sets u.instructions)
      ↔ ∃ target, .assignment target ∈ p.constructs ∧ target.flatten = md.heapGlobal) ∧
    ((∀ target, .assignment target ∈ p.constructs → target.flatten ≠ md.heapGlobal) →
      ∀ u ∈ md.units, ∀ piece, Within piece u.instructions → o.allocator ∉ Instr.calls piece →
        ∀ (floats : FloatUnit) (m m' : Machine), m.run (o.runtime floats) piece = .ok m' →
          m'.global md.heapGlobal = m.global md.heapGlobal) := by
  refine ⟨exists_sets_iff h _, fun hother u hu piece hwithin hcalls floats m m' hrun => ?_⟩
  refine Machine.global_run piece (fun hmem => ?_) (fun _ => hcalls) hrun
  obtain ⟨i, hi, hname⟩ := List.mem_filterMap.1 hmem
  have hset : md.heapGlobal ∈ Instr.sets u.instructions :=
    List.mem_filterMap.2 ⟨i, hwithin.deepAll_subset hi, hname⟩
  obtain ⟨target, htarget, heq⟩ := (exists_sets_iff h _).1 ⟨u, hu, hset⟩
  exact hother target htarget heq

/-- `heap = 1` -/
def heapAssigned : Program where
  elements := [.item (.statement (.assignment ⟨["heap"], none⟩
    (.operand (.literal (.int "1" .decimal none))) none))]

/-- With the heap pointer under another name the assignment leaves it alone. -/
theorem heapAssigned_renamed : ∃ md, heapAssigned.module { heapGlobal := "hp" } = .ok md ∧
    ¬∃ u ∈ md.units, md.heapGlobal ∈ Instr.sets u.instructions := by
  refine ⟨_, rfl, fun hsets => ?_⟩
  obtain ⟨target, hmem, heq⟩ := (Program.sets_heapGlobal_iff
    (show heapAssigned.module { heapGlobal := "hp" } = .ok _ from rfl)).1.1 hsets
  obtain hliteral | htarget := List.mem_pair.1 hmem
  · cases hliteral
  · cases htarget
    exact absurd heq (by decide)

/-- Under its default name the heap pointer is assigned by the program. -/
theorem heapAssigned_sets : ∃ md, heapAssigned.module {} = .ok md ∧
    ∃ u ∈ md.units, md.heapGlobal ∈ Instr.sets u.instructions :=
  ⟨_, rfl, _, List.mem_singleton.2 rfl, List.mem_singleton.2 rfl⟩

end Chainlet
