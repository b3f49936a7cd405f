import Chainlet.Proofs.Stack.Stores

/-!
# Proofs/Stack/Bases — the address that the stores of a composite literal find

An array or object assigns the scratch local once, right behind its allocation, and reads it in front of
each of its values, which neither read nor assign it (`KeepsBase`).  So in front of each value the address
that was allocated for this literal is put on the stack (`EntryRun.findsBase`).  The store looks for it
right under the value on top, and **it lies there exactly when the value has added one value**
(`FindsBase.single_iff`): one without calls and blocks always has.

`Program.keepsBases` says this of every array and object of a program, and of every unit that it uses one
local.  `$[{ 1; 2; }];` is a program whose store takes 1 for the base (`blockStored_base`).
-/

namespace Chainlet

variable {o : Options} {cs : List Construct} {code : List Instr} {value : Literal}
  {entries : List StoredEntry}

/-! ## The run up to a store -/

/-- A run of a literal's code up to a store: the machine in front of the literal, the one behind the
allocation and the entries in front, and the one behind the value that is to be stored. -/
structure EntryRun (o : Options) (floats : FloatUnit) (words : UInt32) (front : List StoredEntry)
    (entry : StoredEntry) (m m₁ m₂ : Machine) : Prop where
  front_run : m.run (o.runtime floats) (allocation o words ++
    front.flatMap (StoredEntry.code o.scratch)) = .ok m₁
  entry_run : m₁.run (o.runtime floats) (.localGet o.scratch :: entry.value) = .ok m₂

/-- What lies on the stack in front of a store: a number of values above the address that was the heap
pointer when the literal was reached.  That address is right under the top exactly when the values are
one. -/
structure FindsBase (o : Options) (count : Nat) (m m₁ m₂ : Machine) : Prop where
  stack : ∃ values, m₂.stack = values ++ m.global o.heapGlobal :: m₁.stack ∧ values.length = count
  single_iff : (∃ v, m₂.stack = v :: m.global o.heapGlobal :: m₁.stack) ↔ count = 1

/-- A number of values above a base leave the base under the top when they are one. -/
theorem exists_cons_iff {α : Type} {stack values below : List α} {base : α}
    (h : stack = values ++ base :: below) :
    (∃ v, stack = v :: base :: below) ↔ values.length = 1 := by
  rw [h]
  constructor
  · rintro ⟨v, hv⟩
    have hlength := congrArg List.length hv
    simp only [List.length_append, List.length_cons] at hlength
    omega
  · intro hone
    obtain ⟨v, rfl⟩ := List.length_eq_one_iff.1 hone
    exact ⟨v, rfl⟩

/-- **In front of a store the address allocated lies under what the value added.** -/
theorem EntryRun.findsBase {floats : FloatUnit} {words : UInt32} {front : List StoredEntry}
    {entry : StoredEntry} {count : Nat} {m m₁ m₂ : Machine}
    (h : EntryRun o floats words front entry m m₁ m₂)
    (hfront : Instr.tees (front.flatMap (StoredEntry.code o.scratch)) = [])
    (hadds : Adds (o.runtime floats) count entry.value) : FindsBase o count m m₁ m₂ := by
  have hbase := locals_run_allocation (writesLocal_of_tees hfront) h.front_run
  obtain ⟨values, hstack, rfl⟩ := entry.stack_eq hadds hbase h.entry_run
  exact ⟨⟨values, hstack, rfl⟩, exists_cons_iff hstack⟩

/-! ## Literals -/

/-- What the code of an array or object does with the scratch local. -/
structure KeepsBase (o : Options) (value : Literal) (piece : List Instr) : Prop where
  code_eq : value.code o = .ok piece
  /-- The local is assigned once, at any depth. -/
  tees_eq : Instr.tees piece = [o.scratch]
  /-- It is assigned right behind the call of the allocator, and only the entries read it, each one in
  front of its value; the values read and assign no local at any depth.  Each store finds the address
  that was allocated under what its value added. -/
  shape : ∃ (words : UInt32) (entries : List StoredEntry) (closing : List Instr),
    piece = [.i32Const words, .call o.allocator, .localTee o.scratch] ++
      (entries.flatMap (StoredEntry.code o.scratch) ++ closing) ∧
    (closing = [] ∨ ∃ count, closing = [.i32Const count]) ∧
    entries.map StoredEntry.source = value.entries ∧
    (∀ entry ∈ entries, entry.source.code o = .ok entry.value ∧
      Instr.tees entry.value = [] ∧ Instr.reads entry.value = [] ∧
      (entry.source.isStraight = true → ∀ floats, Adds (o.runtime floats) 1 entry.value)) ∧
    ∀ front entry back, entries = front ++ entry :: back → ∀ floats count m m₁ m₂,
      Adds (o.runtime floats) count entry.value → EntryRun o floats words front entry m m₁ m₂ →
        FindsBase o count m m₁ m₂
  /-- From the allocation on the local holds the address that was allocated. -/
  base : ∀ (floats : FloatUnit) (words : UInt32) (before after : List Instr) (m m' : Machine),
    piece = allocation o words ++ (before ++ after) →
      m.run (o.runtime floats) (allocation o words ++ before) = .ok m' →
        m'.locals o.scratch = some (m.global o.heapGlobal)

/-- The values of entries without calls and blocks add one value each. -/
theorem StoresEntries.adds_of_isStraight (h : StoresEntries o value entries code)
    {entry : StoredEntry} (hmem : entry ∈ entries) (hstraight : entry.source.isStraight = true)
    (floats : FloatUnit) : Adds (o.runtime floats) 1 entry.value := by
  have hvalue := h.value_eq entry hmem
  have harrays : entry.source.arrays = 0 := Expression.arrays_of_keeps hvalue (h.keeps entry hmem)
  exact Expression.isSingle hstraight harrays entry.value hvalue

/-- **An array or object keeps its base.** -/
theorem StoresEntries.keepsBase (h : StoresEntries o value entries code) :
    KeepsBase o value code := by
  obtain ⟨words, closing, hcode, hclosing⟩ := h.shape
  have hentries : ∀ entry ∈ entries, Instr.tees entry.value = [] :=
    fun entry hmem => (h.values_quiet entry hmem).1
  refine ⟨h.code_eq, ?_, ⟨words, entries, closing, hcode, hclosing, h.sources, fun entry hmem =>
    ⟨h.value_eq entry hmem, hentries entry hmem, (h.values_quiet entry hmem).2,
      h.adds_of_isStraight hmem⟩, ?_⟩, ?_⟩
  · rw [hcode, Instr.tees_append, tees_entries o.scratch hentries hclosing]
    rfl
  · rintro front entry back rfl floats count m m₁ m₂ hadds hrun
    have hquiet : ∀ other ∈ front, Instr.tees other.value = [] :=
      fun other hmem => hentries other (List.mem_append_left _ hmem)
    have hfront : Instr.tees (front.flatMap (StoredEntry.code o.scratch) ++ []) = [] :=
      tees_entries o.scratch hquiet (.inl rfl)
    rw [List.append_nil] at hfront
    exact hrun.findsBase hfront hadds
  · intro floats words' before after m m' hsplit hrun
    have hrest := tees_entries o.scratch hentries hclosing
    rw [hcode] at hsplit
    have hsame := List.append_inj_right hsplit rfl
    rw [hsame, Instr.tees_append, List.append_eq_nil_iff] at hrest
    exact locals_run_allocation (writesLocal_of_tees hrest.1) hrun

/-- **Every array and object that code comes from keeps its base**, in a piece of that code. -/
theorem Emits.keepsBase (h : Emits o cs code) {value : Literal} (hmem : .literal value ∈ cs)
    (hcomposite : value.isComposite = true) : ∃ piece, Within piece code ∧ KeepsBase o value piece := by
  induction h with
  | nil | path | call => cases hmem
  | operator | assignment => cases List.mem_singleton.1 hmem
  | word h _ _ =>
    cases List.mem_singleton.1 hmem
    rw [h] at hcomposite
    cases hcomposite
  | float =>
    cases List.mem_singleton.1 hmem
    cases hcomposite
  | @append _ _ a b _ _ ih ih' =>
    obtain hmem | hmem := List.mem_append.1 hmem
    · obtain ⟨piece, hwithin, hkeeps⟩ := ih hmem
      exact ⟨piece, by simpa using hwithin.between [] b, hkeeps⟩
    · obtain ⟨piece, hwithin, hkeeps⟩ := ih' hmem
      exact ⟨piece, by simpa using hwithin.between a [], hkeeps⟩
  | block _ ih =>
    obtain ⟨piece, hwithin, hkeeps⟩ := ih hmem
    exact ⟨piece, hwithin.block, hkeeps⟩
  | @composite outer entries code stores values ih =>
    rw [stores.constructs_eq, List.mem_cons] at hmem
    obtain heq | hmem := hmem
    · cases heq
      exact ⟨code, .refl code, stores.keepsBase⟩
    · -- nothing that is stored comes from an array or object
      obtain ⟨entry, hentry, hmem⟩ := List.mem_flatMap.1 hmem
      have hnone := filter_isComposite_of_keeps (values entry hentry).tees_eq (stores.keeps entry hentry)
      exact absurd hcomposite (List.filter_eq_nil_iff.1 hnone _ hmem)

/-! ## Units -/

/-- **Every unit uses one local, and every array and object keeps its base in it.**  A unit belongs to an
element, and each element but a comment has one.  The local is that of the options or, in a function,
the only one declared and no parameter, where the search for its name ends; whatever local the unit reads
or assigns, at any depth, is this one.  The code of each array or object that occurs in the element is a
piece of the unit that keeps its base there, and the base lies right under the value that a store takes
exactly when that is the one value which the entry has added. -/
theorem Program.keepsBases {o : Options} {p : Program} {md : Module} (h : p.module o = .ok md) :
    (∀ u ∈ md.units, ∃ e ∈ p.elements, ∃ scratch,
      e.unit? o = .ok (some u) ∧ u.UsesLocal o scratch ∧
      (∀ name ∈ Instr.reads u.instructions ++ Instr.tees u.instructions, name = scratch) ∧
      ∀ value : Literal, .literal value ∈ e.constructs → value.isComposite = true →
        ∃ piece, Within piece u.instructions ∧ KeepsBase (o.withScratch scratch) value piece) ∧
    ∀ e ∈ p.elements, (∃ comment, e = .docComment comment) ∨
      ∃ u ∈ md.units, e.unit? o = .ok (some u) := by
  obtain ⟨units, hunits, h⟩ := bind_eq_ok.1 h
  cases h
  refine ⟨fun u hu => ?_, fun e he => Element.exists_unit hunits he⟩
  obtain ⟨e, he, hunit⟩ := (mem_unitsOf_iff hunits u).1 hu
  obtain ⟨scratch, huses, hemits⟩ := Element.unit_emits hunit
  refine ⟨e, he, scratch, hunit, huses, fun name hname => ?_, fun value hmem hcomposite =>
    hemits.keepsBase hmem hcomposite⟩
  rw [hemits.reads_eq, hemits.tees_eq, List.mem_append, List.mem_map, List.mem_map] at hname
  obtain ⟨_, -, rfl⟩ | ⟨_, -, rfl⟩ := hname <;> rfl

/-- `@fn keep addr = { &keep $[addr, 2], ${ x = 3 } }`: the parameter has the name of the local. -/
def parameterNamedScratch : Program where
  elements := [.item (.statement (.definition ⟨"@fn", ⟨"keep", none, none⟩, none,
    [.named ⟨"addr", none, none⟩],
    some ⟨.block ⟨[.expression (.call ⟨.user ⟨["keep"], none⟩, [
      .operand (.literal (.array [.operand (.path ⟨["addr"], none⟩),
        .operand (.literal (.int "2" .decimal none))] none)),
      .operand (.literal (.object [⟨⟨"x", none, none⟩,
        .operand (.literal (.int "3" .decimal none)), none⟩] none))], none⟩)], none⟩, none⟩, none⟩))]

/-- The array and the object keep their bases in `addr1`. -/
theorem parameterNamedScratch_keepsBases : ∃ md f, parameterNamedScratch.module {} = .ok md ∧
    md.units = [.function f] ∧ f.locals = ["addr1"] ∧ some "addr1" ∉ f.parameters ∧
    Instr.tees f.body = ["addr1", "addr1"] ∧
    ∀ name ∈ Instr.reads f.body ++ Instr.tees f.body, name = "addr1" := by
  refine ⟨_, _, rfl, rfl, ?_⟩
  obtain ⟨e, -, scratch, -, huses, hnames, -⟩ :=
    (Program.keepsBases (show parameterNamedScratch.module {} = .ok _ from rfl)).1 _
      (List.mem_singleton.2 rfl)
  obtain rfl : scratch = "addr1" := (List.singleton_inj.1 huses.1).symm
  exact ⟨huses.1, huses.2 (NameSearch.ends_of_length_le (by decide)), rfl, hnames⟩

/-- `$[{ 1; 2; }];` -/
def blockStored : Program where
  elements := [.item (.expression (.operand (.literal blockElement)))]

/-- Its only entry. -/
def blockEntry : StoredEntry where
  source := .operand (.block ⟨[.expression (.operand (.literal (.int "1" .decimal none))),
    .expression (.operand (.literal (.int "2" .decimal none)))], none⟩)
  value := [.block [.i32Const 1, .i32Const 2]]
  type := .i32
  offset := 0

theorem blockEntry_stores : StoresEntries {} blockElement [blockEntry]
    (allocation {} 1 ++ (blockEntry.code "addr" ++ [.i32Const 1])) where
  isComposite := rfl
  code_eq := rfl
  allocates := ⟨_, rfl⟩
  shape := ⟨1, [.i32Const 1], rfl, .inr ⟨1, rfl⟩⟩
  sources := rfl
  offsets := rfl
  value_eq := List.forall_mem_singleton.2 rfl
  keeps := List.forall_mem_singleton.2 rfl

/-- **The store of `$[{ 1; 2; }];` takes 1 for the base**, the value of the first item, which lies above
the address 1024 that was allocated for the array.  The program has a module all the same. -/
theorem blockStored_base : ∃ md code, blockStored.module {} = .ok md ∧ md.units = [.code code] ∧
    StoresEntries {} blockElement [blockEntry] code ∧
    ∀ floats : FloatUnit, ∃ m m₁ m₂ m₃, m.global "heap" = .word 1024 ∧
      EntryRun {} floats 1 [] blockEntry m m₁ m₂ ∧
      m₂.stack = .word 2 :: .word 1 :: .word 1024 :: m₁.stack ∧
      m₂.store blockEntry.offset = .ok m₃ ∧
      m₃.memory 1 = some (.word 2) ∧ m₃.memory 1024 = none := by
  refine ⟨_, _, rfl, rfl, blockEntry_stores, fun floats => ?_⟩
  exact ⟨.ofStore "heap" ⟨fun _ => 0, 1024, fun _ => none⟩, _, _, _, rfl, ⟨rfl, rfl⟩, rfl, rfl, rfl, rfl⟩

end Chainlet
