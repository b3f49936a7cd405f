import Chainlet.Module.Instr

/-!
# Proofs/Code/Depth — instructions at any depth

`Instr.deepAll` lists the instructions of code with those inside its blocks, in order, and `reads`,
`tees`, `sets` and `calls` the names that `local.get`, `local.tee`, `global.set` and `call` have anywhere
in it, and `stores` the offsets of its stores.  All of them distribute over pieces of code one behind the
other, and a block adds nothing to what is inside.
`Within` says that a piece of code stands in other code, possibly inside blocks.
-/

namespace Chainlet

namespace Instr

mutual

/-- An instruction and, behind a block, the instructions inside it. -/
def deep : Instr → List Instr
  | block body => block body :: deepAll body
  | i => [i]

/-- The instructions of code at any depth. -/
def deepAll : List Instr → List Instr
  | [] => []
  | i :: is => i.deep ++ deepAll is

end

@[simp] theorem deepAll_nil : deepAll [] = [] := by rw [deepAll]

@[simp] theorem deepAll_cons (i : Instr) (is : List Instr) :
    deepAll (i :: is) = i.deep ++ deepAll is := by rw [deepAll]

theorem deepAll_singleton (i : Instr) : deepAll [i] = i.deep := by
  rw [deepAll_cons, deepAll_nil, List.append_nil]

/-- The instructions of two pieces of code, one behind the other. -/
@[simp] theorem deepAll_append (a b : List Instr) : deepAll (a ++ b) = deepAll a ++ deepAll b := by
  induction a with
  | nil => simp
  | cons i is ih => simp [ih]

/-- The instructions of pieces of code that are put together. -/
theorem deepAll_flatMap {α : Type} (f : α → List Instr) (l : List α) :
    deepAll (l.flatMap f) = l.flatMap fun a => deepAll (f a) := by
  induction l with
  | nil => simp
  | cons a l ih => simp [ih]

/-- A block is an instruction itself, besides those of its body. -/
@[simp] theorem deep_block (body : List Instr) : (block body).deep = block body :: deepAll body := by
  rw [deep]

/-! ## The names of locals, globals and functions -/

/-- The local that an instruction reads. -/
def read? : Instr → Option String
  | localGet name => some name
  | _ => none

/-- The local that an instruction assigns. -/
def tee? : Instr → Option String
  | localTee name => some name
  | _ => none

/-- The global that an instruction assigns. -/
def set? : Instr → Option String
  | globalSet name => some name
  | _ => none

/-- The function that an instruction calls. -/
def call? : Instr → Option String
  | call name => some name
  | _ => none

/-- The offset that an instruction stores at. -/
def store? : Instr → Option UInt32
  | store _ offset => some offset
  | _ => none

/-- The locals that code reads, at any depth. -/
def reads (code : List Instr) : List String := (deepAll code).filterMap read?

/-- The locals that code assigns, at any depth. -/
def tees (code : List Instr) : List String := (deepAll code).filterMap tee?

/-- The globals that code assigns, at any depth. -/
def sets (code : List Instr) : List String := (deepAll code).filterMap set?

/-- The functions that code calls, at any depth. -/
def calls (code : List Instr) : List String := (deepAll code).filterMap call?

/-- The offsets that code stores at, at any depth. -/
def stores (code : List Instr) : List UInt32 := (deepAll code).filterMap store?

@[simp] theorem reads_nil : reads [] = [] := rfl

@[simp] theorem tees_nil : tees [] = [] := rfl

@[simp] theorem sets_nil : sets [] = [] := rfl

/-- Code reads what its pieces read. -/
@[simp] theorem reads_append (a b : List Instr) : reads (a ++ b) = reads a ++ reads b := by
  simp [reads]

/-- Code assigns the locals that its pieces assign. -/
@[simp] theorem tees_append (a b : List Instr) : tees (a ++ b) = tees a ++ tees b := by
  simp [tees]

/-- Code assigns the globals that its pieces assign. -/
@[simp] theorem sets_append (a b : List Instr) : sets (a ++ b) = sets a ++ sets b := by
  simp [sets]

@[simp] theorem calls_append (a b : List Instr) : calls (a ++ b) = calls a ++ calls b := by
  simp [calls]

@[simp] theorem stores_append (a b : List Instr) : stores (a ++ b) = stores a ++ stores b := by
  simp [stores]

/-- A block reads what its body reads. -/
@[simp] theorem reads_block (body : List Instr) : reads [block body] = reads body := by
  rw [reads, reads, deepAll_singleton, deep_block, List.filterMap_cons_none rfl]

/-- A block assigns the locals that its body assigns. -/
@[simp] theorem tees_block (body : List Instr) : tees [block body] = tees body := by
  rw [tees, tees, deepAll_singleton, deep_block, List.filterMap_cons_none rfl]

/-- A block assigns the globals that its body assigns. -/
@[simp] theorem sets_block (body : List Instr) : sets [block body] = sets body := by
  rw [sets, sets, deepAll_singleton, deep_block, List.filterMap_cons_none rfl]

@[simp] theorem calls_block (body : List Instr) : calls [block body] = calls body := by
  rw [calls, calls, deepAll_singleton, deep_block, List.filterMap_cons_none rfl]

@[simp] theorem stores_block (body : List Instr) : stores [block body] = stores body := by
  rw [stores, stores, deepAll_singleton, deep_block, List.filterMap_cons_none rfl]

section Pieces

variable {α : Type} (f : α → List Instr) (l : List α)

theorem reads_flatMap : reads (l.flatMap f) = l.flatMap fun a => reads (f a) := by
  simp only [reads, deepAll_flatMap, List.filterMap_flatMap]

theorem tees_flatMap : tees (l.flatMap f) = l.flatMap fun a => tees (f a) := by
  simp only [tees, deepAll_flatMap, List.filterMap_flatMap]

theorem sets_flatMap : sets (l.flatMap f) = l.flatMap fun a => sets (f a) := by
  simp only [sets, deepAll_flatMap, List.filterMap_flatMap]

end Pieces

mutual

/-- An instruction assigns a local exactly if the local is among those it tees at some depth. -/
theorem assigns_iff {name : String} : ∀ i : Instr, i.assigns name = true ↔ name ∈ tees [i]
  | localTee target => by
    rw [assigns, beq_iff_eq, eq_comm]
    exact List.mem_singleton.symm
  | block body => by rw [assigns, writesLocal_iff body, tees_block]
  | i32Const _ | f32Const _ | arithmetic .. | globalGet _ | globalSet _ | localGet _ | call _
  | store .. => by simp [assigns, tees, deep, tee?]

/-- **Code writes the locals that it assigns at some depth.** -/
theorem writesLocal_iff {name : String} : ∀ code : List Instr,
    writesLocal name code = true ↔ name ∈ tees code
  | [] => by simp [writesLocal]
  | i :: is => by
    rw [writesLocal, Bool.or_eq_true, assigns_iff i, writesLocal_iff is, ← List.mem_append,
      ← tees_append, List.singleton_append]

end

end Instr

/-! ## Pieces of code -/

/-- A piece of code stands in other code, in a row or inside blocks. -/
inductive Within (piece : List Instr) : List Instr → Prop
  | here (before after : List Instr) : Within piece (before ++ piece ++ after)
  | inside (before after : List Instr) {body : List Instr} (h : Within piece body) :
      Within piece (before ++ .block body :: after)

namespace Within

variable {piece code : List Instr}

/-- Code is a piece of itself. -/
theorem refl (code : List Instr) : Within code code := by
  have h : Within code ([] ++ code ++ []) := here [] []
  simpa using h

/-- What stands in a piece of code stands in all of it. -/
theorem between (h : Within piece code) (a b : List Instr) : Within piece (a ++ code ++ b) := by
  cases h with
  | here before after =>
    have h : Within piece ((a ++ before) ++ piece ++ (after ++ b)) := here _ _
    simpa using h
  | inside before after h => simpa using inside (a ++ before) (after ++ b) h

/-- A piece of code is a piece of every block around it. -/
theorem block (h : Within piece code) : Within piece [.block code] := inside [] [] h

/-- The instructions of a piece are among those of the code it stands in. -/
theorem deepAll_subset (h : Within piece code) : Instr.deepAll piece ⊆ Instr.deepAll code := by
  induction h with
  | here before after => intro i hi; simp [hi]
  | inside before after _ ih => intro i hi; simp [ih hi]

end Within

end Chainlet
