import Chainlet.Proofs.Code.Units
import Chainlet.Proofs.Meaning.Simulation

/-!
# Proofs/Code/Scratch — the one local of a unit, and what it holds

Code assigns the scratch local once for each array or object it comes from (`Emits.tees_eq`), reads it
once for each entry of one (`Emits.reads_eq`), and names no other local.  A value that is stored does
not assign the local, so there is no array or object in it, and it does not even read the local.

So from the allocation on, as long as code assigns no local, the scratch local holds the address that was
allocated (`locals_run_allocation`).
-/

namespace Chainlet

variable {o : Options} {cs : List Construct} {code : List Instr} {value : Literal}
  {entries : List StoredEntry}

/-! ## What occurs in a literal -/

/-- The expressions that an array or object stores. -/
def Construct.stored : Construct → List Expression
  | literal value => if value.isComposite then value.entries else []
  | _ => []

theorem Construct.stored_of_not_isComposite {c : Construct} (h : c.isComposite = false) :
    c.stored = [] := by
  cases c with
  | literal value => exact if_neg (Bool.eq_false_iff.1 h)
  | operator | assignment | nestedDefinition => rfl

/-- Where there is no array or object, nothing is stored. -/
theorem flatMap_stored_eq_nil (h : cs.filter Construct.isComposite = []) :
    cs.flatMap Construct.stored = [] :=
  List.flatMap_eq_nil_iff.2 fun c hc => Construct.stored_of_not_isComposite
    (Bool.eq_false_iff.2 (List.filter_eq_nil_iff.1 h c hc))

/-! ## Names of locals -/

theorem tees_entry (scratch : String) (entry : StoredEntry) :
    Instr.tees (entry.code scratch) = Instr.tees entry.value :=
  entry.filterMap_code Instr.tee? (fun _ _ => rfl) scratch

theorem reads_entry (scratch : String) (entry : StoredEntry) :
    Instr.reads (entry.code scratch) = scratch :: Instr.reads entry.value :=
  entry.filterMap_code Instr.read? (fun _ _ => rfl) scratch

/-- Behind an array stands its length, which names no local. -/
theorem tees_closing {closing : List Instr}
    (h : closing = [] ∨ ∃ count, closing = [.i32Const count]) : Instr.tees closing = [] := by
  obtain rfl | ⟨count, rfl⟩ := h <;> rfl

theorem reads_closing {closing : List Instr}
    (h : closing = [] ∨ ∃ count, closing = [.i32Const count]) : Instr.reads closing = [] := by
  obtain rfl | ⟨count, rfl⟩ := h <;> rfl

/-- Behind the allocation nothing is assigned if the values assign nothing. -/
theorem tees_entries {closing : List Instr} (scratch : String)
    (hvalues : ∀ entry ∈ entries, Instr.tees entry.value = [])
    (h : closing = [] ∨ ∃ count, closing = [.i32Const count]) :
    Instr.tees (entries.flatMap (StoredEntry.code scratch) ++ closing) = [] := by
  rw [Instr.tees_append, Instr.tees_flatMap, tees_closing h, List.append_nil, List.flatMap_eq_nil_iff]
  exact fun entry hmem => (tees_entry scratch entry).trans (hvalues entry hmem)

/-- Code that keeps the scratch local comes from no array or object. -/
theorem filter_isComposite_of_keeps
    (htees : Instr.tees code = (cs.filter Construct.isComposite).map fun _ => o.scratch)
    (hkeeps : Instr.writesLocal o.scratch code = false) :
    cs.filter Construct.isComposite = [] := by
  have hnot : o.scratch ∉ Instr.tees code := fun hmem =>
    Bool.eq_false_iff.1 hkeeps ((Instr.writesLocal_iff code).2 hmem)
  rw [htees] at hnot
  refine List.eq_nil_iff_forall_not_mem.2 fun c hc => hnot ?_
  exact List.mem_map.2 ⟨c, hc, rfl⟩

/-- **Code assigns the scratch local once for each array or object**, and no other local. -/
theorem Emits.tees_eq (h : Emits o cs code) :
    Instr.tees code = (cs.filter Construct.isComposite).map fun _ => o.scratch := by
  induction h with
  | nil => rfl
  | append _ _ ih ih' => rw [Instr.tees_append, ih, ih', List.filter_append, List.map_append]
  | word h _ _ =>
    rw [List.filter_singleton, Construct.isComposite, h]
    rfl
  | float | path | call | operator | assignment => rfl
  | block _ ih => rw [Instr.tees_block, ih]
  | @composite value entries code stores _ ih =>
    obtain ⟨words, closing, rfl, hclosing⟩ := stores.shape
    have hnone : ∀ entry ∈ entries, entry.source.constructs.filter Construct.isComposite = [] :=
      fun entry hmem => filter_isComposite_of_keeps (ih entry hmem) (stores.keeps entry hmem)
    have hvalues : ∀ entry ∈ entries, Instr.tees entry.value = [] := by
      intro entry hmem
      rw [ih entry hmem, hnone entry hmem, List.map_nil]
    have hcomposite : Construct.isComposite (.literal value) = true := stores.isComposite
    rw [Instr.tees_append, tees_entries o.scratch hvalues hclosing, stores.constructs_eq,
      List.filter_cons_of_pos hcomposite, List.filter_flatMap, List.flatMap_eq_nil_iff.2 hnone]
    rfl

/-- **Code reads the scratch local once for each entry of an array or object**, and no other local. -/
theorem Emits.reads_eq (h : Emits o cs code) :
    Instr.reads code = (cs.flatMap Construct.stored).map fun _ => o.scratch := by
  induction h with
  | nil => rfl
  | append _ _ ih ih' => rw [Instr.reads_append, ih, ih', List.flatMap_append, List.map_append]
  | word h _ _ =>
    rw [List.flatMap_singleton, Construct.stored, if_neg (Bool.eq_false_iff.1 h)]
    rfl
  | float | path | call | operator | assignment => rfl
  | block _ ih => rw [Instr.reads_block, ih]
  | @composite value entries code stores values ih =>
    obtain ⟨words, closing, rfl, hclosing⟩ := stores.shape
    have hnone : ∀ entry ∈ entries, entry.source.constructs.flatMap Construct.stored = [] :=
      fun entry hmem => flatMap_stored_eq_nil
        (filter_isComposite_of_keeps (values entry hmem).tees_eq (stores.keeps entry hmem))
    have hvalues : (entries.flatMap fun entry => Instr.reads (entry.code o.scratch))
        = entries.map fun _ => o.scratch := by
      rw [List.map_eq_flatMap]
      refine List.flatMap_congr fun entry hmem => ?_
      rw [reads_entry, ih entry hmem, hnone entry hmem, List.map_nil]
    have hstored : Construct.stored (.literal value) = entries.map StoredEntry.source := by
      rw [Construct.stored, if_pos stores.isComposite, stores.sources]
    rw [Instr.reads_append, Instr.reads_append, Instr.reads_flatMap, hvalues, reads_closing hclosing,
      stores.constructs_eq, List.flatMap_cons, hstored, List.flatMap_assoc,
      List.flatMap_eq_nil_iff.2 hnone, List.append_nil, List.append_nil, List.map_map]
    rfl

/-- **Code writes the scratch local when it comes from an array or object.** -/
theorem Emits.writesLocal_eq (h : Emits o cs code) :
    Instr.writesLocal o.scratch code = cs.any Construct.isComposite := by
  rw [Bool.eq_iff_iff, Instr.writesLocal_iff, h.tees_eq, List.mem_map, List.any_eq_true]
  simp [List.mem_filter]

/-! ## The base of a literal -/

/-- An allocation moves the heap pointer, and leaves the address it had on the stack and in the scratch
local. -/
theorem run_allocation_eq_ok {floats : FloatUnit} {words : UInt32} {m m' : Machine}
    (h : m.run (o.runtime floats) (allocation o words) = .ok m') :
    ∃ base, m.global o.heapGlobal = .word base ∧
      m' = ((m.setGlobal o.heapGlobal (.word (base + 4 * words))).push (.word base)).setLocal
        o.scratch (.word base) := by
  rw [allocation, Machine.run_cons, Machine.step, ok_bind, Machine.run_cons] at h
  obtain ⟨m₁, hcall, h⟩ := bind_eq_ok.1 h
  have hname : o.allocator = (o.runtime floats).allocator := rfl
  rw [Machine.step, if_pos hname] at hcall
  obtain ⟨⟨w, m₂⟩, hpop, hcall⟩ := bind_eq_ok.1 hcall
  cases hpop
  dsimp only at hcall
  split at hcall
  · next base hbase =>
    cases hcall
    cases h
    exact ⟨base, hbase, rfl⟩
  · cases hcall

/-- Behind an allocation, code that does not assign the scratch local keeps the address in it. -/
theorem locals_run_allocation {floats : FloatUnit} {words : UInt32} {rest : List Instr}
    {m m' : Machine} (hrest : Instr.writesLocal o.scratch rest = false)
    (h : m.run (o.runtime floats) (allocation o words ++ rest) = .ok m') :
    m'.locals o.scratch = some (m.global o.heapGlobal) := by
  rw [Machine.run_append] at h
  obtain ⟨m₁, hallocation, h⟩ := bind_eq_ok.1 h
  obtain ⟨base, hbase, rfl⟩ := run_allocation_eq_ok hallocation
  rw [Machine.locals_run rest hrest h, hbase]
  exact if_pos rfl

/-- The values of the entries of a literal read and assign no local. -/
theorem StoresEntries.values_quiet (h : StoresEntries o value entries code) :
    ∀ entry ∈ entries, Instr.tees entry.value = [] ∧ Instr.reads entry.value = [] := by
  intro entry hmem
  have hemits := entry.source.emits (h.value_eq entry hmem)
  have hnone := filter_isComposite_of_keeps hemits.tees_eq (h.keeps entry hmem)
  rw [hemits.tees_eq, hemits.reads_eq, hnone, flatMap_stored_eq_nil hnone]
  exact ⟨rfl, rfl⟩

/-- Code without a `local.tee` of a local does not write it. -/
theorem writesLocal_of_tees {name : String} (h : Instr.tees code = []) :
    Instr.writesLocal name code = false := by
  refine Bool.eq_false_iff.2 fun hwrites => ?_
  have hmem := (Instr.writesLocal_iff code).1 hwrites
  rw [h] at hmem
  cases hmem

end Chainlet
