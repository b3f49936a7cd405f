import Chainlet.Proofs.Code.Chain
import Chainlet.Proofs.Code.Depth
import Chainlet.Proofs.Program.Construct

/-!
# Proofs/Code/Emits — which constructs a piece of code comes from

`Emits` relates constructs to the code that they become, one rule for each shape that the generator
makes.  `Expression.emits` says that the code of an expression comes from what occurs in it, in the same
order; whatever holds of code by its shape is then an induction on `Emits`, which never looks at the
generator again.  Tuples and nested definitions have no rule: they have no code.
-/

namespace Chainlet

variable {o : Options}

/-- The store of one element or field: what it was, the code of its value, and where it is stored. -/
structure StoredEntry where
  source : Expression
  value : List Instr
  type : NumberType
  offset : UInt32

/-- The base, the value, and the store behind the base. -/
def StoredEntry.code (scratch : String) (entry : StoredEntry) : List Instr :=
  .localGet scratch :: entry.value ++ [.store entry.type entry.offset]

/-- Around its value an entry has nothing to pick out but what the read of the base has. -/
theorem StoredEntry.filterMap_code {α : Type} (part? : Instr → Option α)
    (hstore : ∀ type offset, part? (.store type offset) = none) (scratch : String)
    (entry : StoredEntry) : (Instr.deepAll (entry.code scratch)).filterMap part?
      = (part? (.localGet scratch)).toList ++ (Instr.deepAll entry.value).filterMap part? := by
  have hdeep : Instr.deepAll (entry.code scratch) = [.localGet scratch] ++
      (Instr.deepAll entry.value ++ [.store entry.type entry.offset]) := by
    rw [StoredEntry.code, ← List.singleton_append, List.append_assoc, Instr.deepAll_append,
      Instr.deepAll_append]
    rfl
  rw [hdeep, List.filterMap_append, List.filterMap_append, List.filterMap_cons_none (hstore ..),
    List.filterMap_nil, List.append_nil]
  cases hpart : part? (.localGet scratch) <;> simp [hpart]

/-- The number of words that an array or object allocates. -/
def Literal.words : Literal → UInt32
  | .array elements _ => UInt32.ofNat elements.length
  | .object fields _ => objectSize fields / wordSize
  | _ => 0

/-- The offsets of a number of entries, each one word behind the one before it. -/
def offsetsFrom (offset : UInt32) : Nat → List UInt32
  | 0 => []
  | n + 1 => offset :: offsetsFrom (offset + wordSize) n

/-- The code of an array or object: the allocation, the entries one by one, and behind an array its
length.  No value assigns the local that holds the base. -/
structure StoresEntries (o : Options) (value : Literal) (entries : List StoredEntry)
    (code : List Instr) : Prop where
  isComposite : value.isComposite = true
  code_eq : value.code o = .ok code
  allocates : ∃ rest, code = allocation o value.words ++ rest
  shape : ∃ words closing, code = allocation o words ++ (entries.flatMap (StoredEntry.code o.scratch)
    ++ closing) ∧ (closing = [] ∨ ∃ count, closing = [.i32Const count])
  sources : entries.map StoredEntry.source = value.entries
  offsets : entries.map StoredEntry.offset = offsetsFrom 0 entries.length
  value_eq : ∀ entry ∈ entries, entry.source.code o = .ok entry.value
  keeps : ∀ entry ∈ entries, Instr.writesLocal o.scratch entry.value = false

/-- What occurs in a literal: itself, and what occurs in the sources of its entries. -/
theorem StoresEntries.constructs_eq {value : Literal} {entries : List StoredEntry}
    {code : List Instr} (h : StoresEntries o value entries code) : value.constructs
      = .literal value :: entries.flatMap fun entry => entry.source.constructs := by
  rw [Literal.constructs_eq, ← h.sources, List.flatMap_map]

/-- Constructs and the code they become. -/
inductive Emits (o : Options) : List Construct → List Instr → Prop
  | nil : Emits o [] []
  | append {cs ds : List Construct} {a b : List Instr} (first : Emits o cs a) (second : Emits o ds b) :
      Emits o (cs ++ ds) (a ++ b)
  | word {value : Literal} (h : value.isComposite = false)
      (hword : Construct.isFloat (.literal value) = false) (w : UInt32) :
      Emits o [.literal value] [.i32Const w]
  | float (x : Binary32) (span : Option Span) :
      Emits o [.literal (.float x span)] [.f32Const x]
  | path (name : String) : Emits o [] [.globalGet name]
  | call (name : String) : Emits o [] [.call name]
  | operator (operator : String) (type : NumberType) (operation : Arithmetic) :
      Emits o [.operator operator] [.arithmetic type operation]
  | assignment (target : Path) : Emits o [.assignment target] [.globalSet target.flatten]
  | block {cs : List Construct} {body : List Instr} (inside : Emits o cs body) :
      Emits o cs [.block body]
  | composite {value : Literal} {entries : List StoredEntry} {code : List Instr}
      (stores : StoresEntries o value entries code)
      (values : ∀ entry ∈ entries, Emits o entry.source.constructs entry.value) :
      Emits o value.constructs code

/-! ## Lists of parts -/

/-- The entries that the code of elements stores. -/
theorem elementsCode_entries {es : List Expression} {offset : UInt32} {code : List Instr}
    (h : elementsCode o offset es = .ok code) : ∃ entries : List StoredEntry,
      code = entries.flatMap (StoredEntry.code o.scratch) ∧ entries.map StoredEntry.source = es ∧
        entries.map StoredEntry.offset = offsetsFrom offset entries.length ∧
        ∀ entry ∈ entries, entry.source.code o = .ok entry.value ∧
          Instr.writesLocal o.scratch entry.value = false := by
  induction es generalizing offset code with
  | nil =>
    rw [elementsCode] at h
    cases h
    exact ⟨[], rfl, rfl, rfl, fun _ hmem => absurd hmem List.not_mem_nil⟩
  | cons e es ih =>
    rw [elementsCode] at h
    obtain ⟨value, hvalue, h⟩ := bind_eq_ok.1 h
    obtain ⟨stored, hstored, h⟩ := bind_eq_ok.1 h
    obtain ⟨rest, hrest, h⟩ := bind_eq_ok.1 h
    cases h
    obtain ⟨rfl, hkeeps⟩ := storedCode_eq_ok hstored
    obtain ⟨entries, rfl, rfl, hoffsets, hentries⟩ := ih hrest
    exact ⟨⟨e, stored, storeType stored, offset⟩ :: entries, by simp [StoredEntry.code], rfl,
      congrArg (offset :: ·) hoffsets, List.forall_mem_cons.2 ⟨⟨hvalue, hkeeps⟩, hentries⟩⟩

/-- The entries that the code of fields stores. -/
theorem fieldsCode_entries {fs : List Field} {offset : UInt32} {code : List Instr}
    (h : fieldsCode o offset fs = .ok code) : ∃ entries : List StoredEntry,
      code = entries.flatMap (StoredEntry.code o.scratch) ∧
        entries.map StoredEntry.source = fs.map Field.value ∧
        entries.map StoredEntry.offset = offsetsFrom offset entries.length ∧
        ∀ entry ∈ entries, entry.source.code o = .ok entry.value ∧
          Instr.writesLocal o.scratch entry.value = false := by
  induction fs generalizing offset code with
  | nil =>
    rw [fieldsCode] at h
    cases h
    exact ⟨[], rfl, rfl, rfl, fun _ hmem => absurd hmem List.not_mem_nil⟩
  | cons f fs ih =>
    obtain ⟨key, e, span⟩ := f
    rw [fieldsCode] at h
    obtain ⟨value, hvalue, h⟩ := bind_eq_ok.1 h
    obtain ⟨stored, hstored, h⟩ := bind_eq_ok.1 h
    obtain ⟨rest, hrest, h⟩ := bind_eq_ok.1 h
    cases h
    obtain ⟨rfl, hkeeps⟩ := storedCode_eq_ok hstored
    obtain ⟨entries, rfl, hsources, hoffsets, hentries⟩ := ih hrest
    exact ⟨⟨e, stored, key.storage, offset⟩ :: entries, by simp [StoredEntry.code],
      congrArg (e :: ·) hsources, congrArg (offset :: ·) hoffsets, List.forall_mem_cons.2 ⟨⟨hvalue, hkeeps⟩, hentries⟩⟩

theorem word?_eq_some {n : Nat} {w : UInt32} (h : word? n = some w) : w = UInt32.ofNat n := by
  unfold word? at h
  split at h
  · exact (Option.some.inj h).symm
  · cases h

/-- The code of an array or object that has one stores its entries. -/
theorem Literal.stores_code {value : Literal} {code : List Instr}
    (hcomposite : value.isComposite = true) (h : value.code o = .ok code) :
    ∃ entries, StoresEntries o value entries code := by
  cases value with
  | array elements span =>
    have hcode := h
    rw [Literal.code] at h
    split at h
    · next count hcount =>
      obtain ⟨stores, hstores, h⟩ := bind_eq_ok.1 h
      cases h
      obtain rfl := word?_eq_some hcount
      obtain ⟨entries, rfl, hsources, hoffsets, hentries⟩ := elementsCode_entries hstores
      exact ⟨entries, rfl, hcode, ⟨_, List.append_assoc ..⟩,
        ⟨_, [.i32Const (UInt32.ofNat elements.length)], List.append_assoc .., .inr ⟨_, rfl⟩⟩, hsources, hoffsets,
        fun entry hmem => (hentries entry hmem).1, fun entry hmem => (hentries entry hmem).2⟩
    · cases h
  | object fields span =>
    have hcode := h
    rw [Literal.code] at h
    obtain ⟨stores, hstores, h⟩ := bind_eq_ok.1 h
    cases h
    obtain ⟨entries, rfl, hsources, hoffsets, hentries⟩ := fieldsCode_entries hstores
    exact ⟨entries, rfl, hcode, ⟨_, rfl⟩, ⟨objectSize fields / wordSize, [], by simp, .inl rfl⟩,
      hsources, hoffsets, fun entry hmem => (hentries entry hmem).1, fun entry hmem => (hentries entry hmem).2⟩
  | tuple | string | int | float | boolean => cases hcomposite

/-! ## Expressions, items and literals -/

mutual

/-- **The code of an expression comes from what occurs in it.** -/
theorem Expression.emits : ∀ (e : Expression) {code : List Instr}, e.code o = .ok code →
    Emits o e.constructs code
  | .binary left operator right _, code, h => by
    rw [Expression.code_binary] at h
    obtain ⟨l, hl, h⟩ := bind_eq_ok.1 h
    obtain ⟨r, hr, h⟩ := bind_eq_ok.1 h
    rw [Expression.constructs]
    unfold operatorCode at h
    split at h
    · cases h
      exact ((left.emits hl).append (right.emits hr)).append (.operator operator _ _)
    · cases h
  | .call c, code, h => by
    rw [Expression.code_call] at h
    rw [Expression.constructs]
    exact c.emits h
  | .operand value, code, h => by
    rw [Expression.code_operand] at h
    rw [Expression.constructs]
    exact value.emits h

theorem Call.emits : ∀ (c : Call) {code : List Instr}, c.code o = .ok code →
    Emits o c.constructs code
  | ⟨callee, arguments, _⟩, code, h => by
    rw [Call.code] at h
    obtain ⟨pushes, hpushes, h⟩ := bind_eq_ok.1 h
    cases h
    rw [Call.constructs, ← List.append_nil (expressionsConstructs arguments)]
    exact (arguments_emit arguments hpushes).append (.call _)

theorem Operand.emits : ∀ (v : Operand) {code : List Instr}, v.code o = .ok code →
    Emits o v.constructs code
  | .literal value, code, h => by
    rw [Operand.code] at h
    rw [Operand.constructs]
    exact value.emits h
  | .path p, code, h => by
    rw [Operand.code] at h
    cases h
    rw [Operand.constructs]
    exact .path p.flatten
  | .block b, code, h => by
    rw [Operand.code] at h
    rw [Operand.constructs]
    exact b.emits h
  | .group inner, code, h => by
    rw [Operand.code] at h
    rw [Operand.constructs]
    exact inner.emits h

theorem Block.emits : ∀ (b : Block) {code : List Instr}, b.code o = .ok code →
    Emits o b.constructs code
  | ⟨items, _⟩, code, h => by
    rw [Block.code] at h
    obtain ⟨body, hbody, h⟩ := bind_eq_ok.1 h
    cases h
    rw [Block.constructs]
    exact (items_emit items hbody).block

theorem Literal.emits : ∀ (value : Literal) {code : List Instr}, value.code o = .ok code →
    Emits o value.constructs code
  | .array elements span, code, h => by
    obtain ⟨entries, hstores⟩ := Literal.stores_code rfl h
    have hsources : entries.map StoredEntry.source = elements := hstores.sources
    refine .composite hstores fun entry hmem => ?_
    exact expressions_emit elements entry.source (hsources ▸ List.mem_map_of_mem hmem)
      (hstores.value_eq entry hmem)
  | .object fields span, code, h => by
    obtain ⟨entries, hstores⟩ := Literal.stores_code rfl h
    have hsources : entries.map StoredEntry.source = fields.map Field.value := hstores.sources
    refine .composite hstores fun entry hmem => ?_
    exact fields_emit fields entry.source (hsources ▸ List.mem_map_of_mem hmem)
      (hstores.value_eq entry hmem)
  | .tuple _ _, code, h => by rw [Literal.code] at h; cases h
  | .string content span, code, h => by
    rw [Literal.code] at h
    cases h
    rw [Literal.constructs]
    · exact .word rfl rfl 0
    all_goals nofun
  | .int text base span, code, h => by
    rw [Literal.code] at h
    split at h
    · next w _ =>
      cases h
      rw [Literal.constructs]
      · exact .word rfl rfl w
      all_goals nofun
    · cases h
  | .float x span, code, h => by
    rw [Literal.code] at h
    cases h
    rw [Literal.constructs]
    · exact .float x span
    all_goals nofun
  | .boolean b span, code, h => by
    rw [Literal.code] at h
    cases h
    rw [Literal.constructs]
    · exact .word rfl rfl _
    all_goals nofun

theorem Item.emits : ∀ (i : Item) {code : List Instr}, i.code o = .ok code →
    Emits o i.constructs code
  | .expression e, code, h => by
    rw [Item.code] at h
    rw [Item.constructs]
    exact e.emits h
  | .statement (.assignment target value _), code, h => by
    rw [Item.code] at h
    obtain ⟨pushes, hpushes, h⟩ := bind_eq_ok.1 h
    cases h
    rw [Item.constructs]
    exact (value.emits hpushes).append (.assignment target)
  | .statement (.definition d), code, h => by rw [Item.code] at h; cases h

theorem expressions_emit : ∀ (es : List Expression), ∀ e ∈ es, ∀ {code : List Instr},
    e.code o = .ok code → Emits o e.constructs code
  | [] => fun _ hmem => absurd hmem List.not_mem_nil
  | e :: es => List.forall_mem_cons.2 ⟨fun h => e.emits h, expressions_emit es⟩

theorem fields_emit : ∀ (fs : List Field), ∀ e ∈ fs.map Field.value, ∀ {code : List Instr},
    e.code o = .ok code → Emits o e.constructs code
  | [] => fun _ hmem => absurd hmem List.not_mem_nil
  | ⟨_, e, _⟩ :: fs => List.forall_mem_cons.2 ⟨fun h => e.emits h, fields_emit fs⟩

theorem arguments_emit : ∀ (es : List Expression) {code : List Instr},
    argumentsCode o es = .ok code → Emits o (expressionsConstructs es) code
  | [], code, h => by
    rw [argumentsCode] at h
    cases h
    rw [expressionsConstructs]
    exact .nil
  | e :: es, code, h => by
    rw [argumentsCode] at h
    obtain ⟨first, hfirst, h⟩ := bind_eq_ok.1 h
    obtain ⟨rest, hrest, h⟩ := bind_eq_ok.1 h
    cases h
    rw [expressionsConstructs]
    exact (e.emits hfirst).append (arguments_emit es hrest)

theorem items_emit : ∀ (is : List Item) {code : List Instr},
    itemsCode o is = .ok code → Emits o (itemsConstructs is) code
  | [], code, h => by
    rw [itemsCode] at h
    cases h
    rw [itemsConstructs]
    exact .nil
  | i :: is, code, h => by
    rw [itemsCode] at h
    obtain ⟨first, hfirst, h⟩ := bind_eq_ok.1 h
    obtain ⟨rest, hrest, h⟩ := bind_eq_ok.1 h
    cases h
    rw [itemsConstructs]
    exact (i.emits hfirst).append (items_emit is hrest)

end

end Chainlet
