import Chainlet.Proofs.Code.Units
import Chainlet.Proofs.Program.Mentions

/-!
# Proofs/Code/Accesses — the globals and functions that code names

Code names a global or a function where the program mentions a path, a call, an array or an object, in the
same order, and all the integers that are mentioned in it fit in a word (`Expression.realizes`).  A path
goes by its flattened text.  The segments of a path that was read from a source are names and have no
points, so the text can be taken apart again (`Path.segments_eq`), and **distinct paths never share a
global** (`Program.paths_apart`).
-/

namespace Chainlet

/-! ## Flattened paths -/

/-- No point stands in a name. -/
theorem not_mem_of_isName {w : List Char} (h : Form.name w = true) : '.' ∉ w := by
  cases w with
  | nil => exact List.not_mem_nil
  | cons c cs =>
    obtain ⟨hc, hcs⟩ := (Bool.and_eq_true ..).mp h
    rintro (_ | ⟨_, hmem⟩)
    · exact absurd hc (by decide)
    · exact absurd (List.all_eq_true.1 hcs _ hmem) (by decide)

/-- **A flattened path is taken apart at its points.** -/
theorem Path.segments_eq {p : Path} (h : p.isWritable = true) :
    p.segments.map String.toList = p.flatten.toList.splitOn '.' := by
  obtain ⟨hne, hnames⟩ := (Bool.and_eq_true ..).mp h
  have hpoints : ∀ w ∈ p.segments.map String.toList, '.' ∉ w := by
    intro w hw
    obtain ⟨name, hname, rfl⟩ := List.mem_map.1 hw
    exact not_mem_of_isName (List.all_eq_true.1 hnames name hname)
  have hsome : p.segments.map String.toList ≠ [] := by
    rw [ne_eq, List.map_eq_nil_iff, ← List.isEmpty_iff]
    simpa using hne
  rw [flatten, String.toList_intercalate]
  exact (List.splitOn_intercalate '.' hpoints hsome).symm

/-- Paths with one flattened text are the same, segment by segment. -/
theorem Path.flatten_inj {a b : Path} (ha : a.isWritable = true) (hb : b.isWritable = true) :
    a.flatten = b.flatten ↔ a.segments = b.segments := by
  constructor
  · intro h
    have hwords : a.segments.map String.toList = b.segments.map String.toList := by
      rw [segments_eq ha, segments_eq hb, h]
    exact List.map_injective_iff.2 (fun _ _ => String.toList_inj.1) hwords
  · intro h
    rw [flatten, flatten, h]

/-! ## What code names -/

/-- A use of something outside of a function by name. -/
inductive Access where
  | get (global : String)
  | set (global : String)
  | call (function : String)
deriving DecidableEq

/-- The name that is accessed. -/
def Access.name : Access → String
  | get name | set name | call name => name

/-- The access of an instruction, if it is one. -/
def Instr.access? : Instr → Option Access
  | globalGet name => some (.get name)
  | globalSet name => some (.set name)
  | call name => some (.call name)
  | _ => none

/-- The globals and functions that code names, at any depth. -/
def Instr.accesses (code : List Instr) : List Access := (deepAll code).filterMap access?

/-- Code accesses what its pieces access, in their order. -/
@[simp] theorem Instr.accesses_append (a b : List Instr) : accesses (a ++ b) = accesses a ++ accesses b := by
  simp [accesses]

/-- A block accesses what its body accesses. -/
@[simp] theorem Instr.accesses_block (body : List Instr) : accesses [block body] = accesses body := by
  rw [accesses, accesses, deepAll_singleton, deep_block, List.filterMap_cons_none rfl]

/-- **The access that code has for a mention**: a path goes by its flattened text, an array or an object is
a call of the allocator, a number names nothing. -/
def Mention.access? (o : Options) : Mention → Option Access
  | read path => some (.get path.flatten)
  | assigned path => some (.set path.flatten)
  | called callee => some (.call (callee.target o))
  | composite => some (.call o.allocator)
  | int .. => none

/-- What is called, read or assigned goes by the same name whatever the options are, if it has a path. -/
theorem Mention.access?_path {m : Mention} {path : Path} (h : m.path? = some path) (o : Options) :
    ∃ x, m.access? o = some x ∧ x.name = path.flatten := by
  cases m with
  | read p => cases h; exact ⟨_, rfl, rfl⟩
  | assigned p => cases h; exact ⟨_, rfl, rfl⟩
  | called c =>
    cases c with
    | builtin keyword => cases h
    | user p => cases h; exact ⟨_, rfl, rfl⟩
  | composite | int text base => cases h

/-! ## Mentions that have code -/

variable {o : Options}

/-- What code has to do with the mentions that it comes from: it names what they stand for, in the same
order, and all the integers among them fit in a word. -/
structure Realizes (o : Options) (ms : List Mention) (code : List Instr) : Prop where
  accesses : Instr.accesses code = ms.filterMap (Mention.access? o)
  fits : ∀ text base, Mention.int text base ∈ ms → ∃ w, intValue? base text = some w

namespace Realizes

variable {ms ms' : List Mention} {m : Mention} {code code' : List Instr}

/-- Code that names nothing. -/
theorem nil (h : Instr.accesses code = []) : Realizes o [] code :=
  ⟨h, fun _ _ hmem => absurd hmem List.not_mem_nil⟩

/-- Pieces of code realize what they mention one after the other. -/
theorem append (h : Realizes o ms code) (h' : Realizes o ms' code') :
    Realizes o (ms ++ ms') (code ++ code') where
  accesses := by rw [Instr.accesses_append, h.accesses, h'.accesses, List.filterMap_append]
  fits text base hmem := (List.mem_append.1 hmem).elim (h.fits text base) (h'.fits text base)

/-- A single mention has its access and nothing more. -/
theorem single (h : Instr.accesses code = [m].filterMap (Mention.access? o))
    (hfits : ∀ text base, Mention.int text base = m → ∃ w, intValue? base text = some w) :
    Realizes o [m] code :=
  ⟨h, fun text base hmem => hfits text base (List.mem_singleton.1 hmem)⟩

/-- A block realizes what its body does. -/
theorem block (h : Realizes o ms code) : Realizes o ms [.block code] :=
  ⟨(Instr.accesses_block code).trans h.accesses, h.fits⟩

/-- Pieces of code that are put together realize what all of them mention. -/
theorem flatMap {α : Type} {mentions : α → List Mention} {codes : α → List Instr} {l : List α}
    (h : ∀ a ∈ l, Realizes o (mentions a) (codes a)) :
    Realizes o (l.flatMap mentions) (l.flatMap codes) := by
  induction l with
  | nil => exact nil rfl
  | cons a l ih =>
    rw [List.forall_mem_cons] at h
    exact h.1.append (ih h.2)

end Realizes

/-- An array or object is a call of the allocator, and then come its values. -/
theorem StoresEntries.realizes {value : Literal} {entries : List StoredEntry} {code : List Instr}
    (h : StoresEntries o value entries code)
    (hvalues : ∀ entry ∈ entries, Realizes o entry.source.mentions entry.value) :
    Realizes o (.composite :: value.entries.flatMap Expression.mentions) code := by
  obtain ⟨words, closing, rfl, hclosing⟩ := h.shape
  have hallocation : Realizes o [.composite] (allocation o words) := .single rfl nofun
  have hend : Realizes o [] closing := .nil (by obtain rfl | ⟨count, rfl⟩ := hclosing <;> rfl)
  have hentry : ∀ entry ∈ entries, Realizes o entry.source.mentions (entry.code o.scratch) :=
    fun entry hmem => ⟨(StoredEntry.filterMap_code Instr.access? (fun _ _ => rfl) o.scratch entry).trans
      (hvalues entry hmem).accesses, (hvalues entry hmem).fits⟩
  have hall := hallocation.append ((Realizes.flatMap hentry).append hend)
  rwa [List.append_nil, List.singleton_append, ← List.flatMap_map StoredEntry.source, h.sources] at hall

mutual

/-- **Code realizes what the expression it comes from mentions.** -/
theorem Expression.realizes : ∀ (e : Expression) {code : List Instr}, e.code o = .ok code →
    Realizes o e.mentions code
  | .binary left operator right _, code, h => by
    rw [Expression.code_binary] at h
    obtain ⟨l, hl, h⟩ := bind_eq_ok.1 h
    obtain ⟨r, hr, h⟩ := bind_eq_ok.1 h
    unfold operatorCode at h
    split at h
    · cases h
      rw [Expression.mentions, ← List.append_nil (left.mentions ++ right.mentions)]
      exact ((left.realizes hl).append (right.realizes hr)).append (.nil rfl)
    · cases h
  | .call c, code, h => by
    rw [Expression.code_call] at h
    rw [Expression.mentions]
    exact c.realizes h
  | .operand value, code, h => by
    rw [Expression.code_operand] at h
    rw [Expression.mentions]
    exact value.realizes h

/-- A call accesses what its arguments do, and then its function. -/
theorem Call.realizes : ∀ (c : Call) {code : List Instr}, c.code o = .ok code →
    Realizes o c.mentions code
  | ⟨callee, arguments, _⟩, code, h => by
    rw [Call.code] at h
    obtain ⟨pushes, hpushes, h⟩ := bind_eq_ok.1 h
    cases h
    rw [Call.mentions]
    exact (arguments_realize arguments hpushes).append (.single rfl nofun)

/-- A path that is read is one access; other operands access what their inside does. -/
theorem Operand.realizes : ∀ (v : Operand) {code : List Instr}, v.code o = .ok code →
    Realizes o v.mentions code
  | .literal value, code, h => by
    rw [Operand.code] at h
    rw [Operand.mentions]
    exact value.realizes h
  | .path p, code, h => by
    rw [Operand.code] at h
    cases h
    rw [Operand.mentions]
    exact .single rfl nofun
  | .block b, code, h => by
    rw [Operand.code] at h
    rw [Operand.mentions]
    exact b.realizes h
  | .group inner, code, h => by
    rw [Operand.code] at h
    rw [Operand.mentions]
    exact inner.realizes h

/-- A block accesses what its items do. -/
theorem Block.realizes : ∀ (b : Block) {code : List Instr}, b.code o = .ok code →
    Realizes o b.mentions code
  | ⟨items, _⟩, code, h => by
    rw [Block.code] at h
    obtain ⟨body, hbody, h⟩ := bind_eq_ok.1 h
    cases h
    rw [Block.mentions]
    exact (items_realize items hbody).block

/-- An array or an object allocates its memory, and accesses what its elements do. -/
theorem Literal.realizes : ∀ (value : Literal) {code : List Instr}, value.code o = .ok code →
    Realizes o value.mentions code
  | .array elements span, code, h => by
    obtain ⟨entries, hstores⟩ := Literal.stores_code rfl h
    have hsources : entries.map StoredEntry.source = elements := hstores.sources
    rw [Literal.mentions, expressionsMentions_eq]
    exact hstores.realizes fun entry hmem => expressions_realize elements entry.source
      (hsources ▸ List.mem_map_of_mem hmem) (hstores.value_eq entry hmem)
  | .object fields span, code, h => by
    obtain ⟨entries, hstores⟩ := Literal.stores_code rfl h
    have hsources : entries.map StoredEntry.source = fields.map Field.value := hstores.sources
    rw [Literal.mentions, fieldsMentions_eq_values]
    exact hstores.realizes fun entry hmem => fields_realize fields entry.source
      (hsources ▸ List.mem_map_of_mem hmem) (hstores.value_eq entry hmem)
  | .tuple _ _, code, h => by rw [Literal.code] at h; cases h
  | .string .., code, h | .float .., code, h | .boolean .., code, h => by
    rw [Literal.code] at h
    cases h
    exact .nil rfl
  | .int text base span, code, h => by
    rw [Literal.code] at h
    split at h
    · next w hw =>
      cases h
      rw [Literal.mentions]
      refine .single rfl fun text' base' heq => ?_
      cases heq
      exact ⟨w, hw⟩
    · cases h

/-- An assignment accesses its target behind the value. -/
theorem Item.realizes : ∀ (i : Item) {code : List Instr}, i.code o = .ok code →
    Realizes o i.mentions code
  | .expression e, code, h => by
    rw [Item.code] at h
    rw [Item.mentions]
    exact e.realizes h
  | .statement (.assignment target value _), code, h => by
    rw [Item.code] at h
    obtain ⟨pushes, hpushes, h⟩ := bind_eq_ok.1 h
    cases h
    rw [Item.mentions, Statement.mentions]
    exact (value.realizes hpushes).append (.single rfl nofun)
  | .statement (.definition d), code, h => by rw [Item.code] at h; cases h

theorem expressions_realize : ∀ (es : List Expression), ∀ e ∈ es, ∀ {code : List Instr},
    e.code o = .ok code → Realizes o e.mentions code
  | [] => fun _ hmem => absurd hmem List.not_mem_nil
  | e :: es => List.forall_mem_cons.2 ⟨fun h => e.realizes h, expressions_realize es⟩

theorem fields_realize : ∀ (fs : List Field), ∀ e ∈ fs.map Field.value, ∀ {code : List Instr},
    e.code o = .ok code → Realizes o e.mentions code
  | [] => fun _ hmem => absurd hmem List.not_mem_nil
  | ⟨_, e, _⟩ :: fs => List.forall_mem_cons.2 ⟨fun h => e.realizes h, fields_realize fs⟩

theorem arguments_realize : ∀ (es : List Expression) {code : List Instr},
    argumentsCode o es = .ok code → Realizes o (expressionsMentions es) code
  | [], code, h => by
    rw [argumentsCode] at h
    cases h
    exact .nil rfl
  | e :: es, code, h => by
    rw [argumentsCode] at h
    obtain ⟨first, hfirst, h⟩ := bind_eq_ok.1 h
    obtain ⟨rest, hrest, h⟩ := bind_eq_ok.1 h
    cases h
    rw [expressionsMentions]
    exact (e.realizes hfirst).append (arguments_realize es hrest)

theorem items_realize : ∀ (is : List Item) {code : List Instr}, itemsCode o is = .ok code →
    Realizes o (itemsMentions is) code
  | [], code, h => by
    rw [itemsCode] at h
    cases h
    exact .nil rfl
  | i :: is, code, h => by
    rw [itemsCode] at h
    obtain ⟨first, hfirst, h⟩ := bind_eq_ok.1 h
    obtain ⟨rest, hrest, h⟩ := bind_eq_ok.1 h
    cases h
    rw [itemsMentions]
    exact (i.realizes hfirst).append (items_realize is hrest)

end

/-! ## Units and programs -/

/-- What an element mentions that has code.  Of a definition this is the body: the patterns among its
parameters have none. -/
def Element.codeMentions : Element → List Mention
  | .docComment _ => []
  | .item (.statement (.definition d)) => bindingMentions d.binding
  | .item i => i.mentions

/-- What the parts of a program with code mention. -/
def Program.codeMentions (p : Program) : List Mention := p.elements.flatMap Element.codeMentions

theorem Element.codeMentions_subset (e : Element) : e.codeMentions ⊆ e.mentions := by
  match e with
  | .docComment _ => exact List.Subset.refl _
  | .item (.statement (.definition ⟨keyword, name, generics, parameters, binding, span⟩)) =>
    exact List.subset_append_right _ _
  | .item (.statement (.assignment target value span)) => exact List.Subset.refl _
  | .item (.expression e) => exact List.Subset.refl _

/-- What the parts with code mention, the program mentions. -/
theorem Program.codeMentions_subset (p : Program) : p.codeMentions ⊆ p.mentions := by
  intro m hm
  obtain ⟨e, he, hm⟩ := List.mem_flatMap.1 hm
  exact List.mem_flatMap.2 ⟨e, he, e.codeMentions_subset hm⟩

/-- Only the scratch local differs inside a function, and no mention is a local. -/
theorem Realizes.ofScratch {scratch : String} {ms : List Mention} {code : List Instr}
    (h : Realizes (o.withScratch scratch) ms code) : Realizes o ms code := by
  have haccess : Mention.access? (o.withScratch scratch) = Mention.access? o := by
    funext m
    cases m <;> rfl
  exact ⟨haccess ▸ h.accesses, h.fits⟩

/-- The code of a body realizes what the body mentions. -/
theorem Definition.bodyCode_realizes {d : Definition} {code : List Instr} (h : d.bodyCode o = .ok code) :
    Realizes o (bindingMentions d.binding) code := by
  rw [bodyCode] at h
  split at h
  · next hbinding =>
    cases h
    rw [hbinding]
    exact .nil rfl
  · next b hbinding =>
    obtain ⟨body, span⟩ := b
    rw [hbinding]
    exact (body.realizes h).ofScratch

/-- The unit of an element realizes what the element mentions. -/
theorem Element.unit?_realizes {e : Element} {u? : Option ModuleUnit} (h : e.unit? o = .ok u?) :
    Realizes o e.codeMentions (u?.toList.flatMap ModuleUnit.instructions) := by
  unfold unit? at h
  split at h
  · cases h
    exact .nil rfl
  · next d =>
    obtain ⟨f, hf, h⟩ := bind_eq_ok.1 h
    rw [Definition.function_eq] at hf
    obtain ⟨body, hbody, hf⟩ := bind_eq_ok.1 hf
    cases hf
    cases h
    rw [Option.toList_some, List.flatMap_singleton]
    exact Definition.bodyCode_realizes hbody
  · next i hi =>
    obtain ⟨code, hcode, h⟩ := bind_eq_ok.1 h
    cases h
    rw [Option.toList_some, List.flatMap_singleton, codeMentions]
    · exact i.realizes hcode
    · exact hi

/-- The units of a program realize what its elements mention. -/
theorem unitsOf_realize {es : List Element} {units : List ModuleUnit} (h : unitsOf o es = .ok units) :
    Realizes o (es.flatMap Element.codeMentions) (units.flatMap ModuleUnit.instructions) := by
  induction es generalizing units with
  | nil =>
    cases h
    exact .nil rfl
  | cons e es ih =>
    obtain ⟨unit?, hunit, h⟩ := bind_eq_ok.1 h
    obtain ⟨rest, hrest, h⟩ := bind_eq_ok.1 h
    cases h
    rw [List.flatMap_append, List.flatMap_cons]
    exact (Element.unit?_realizes hunit).append (ih hrest)

/-- The units of a module realize what the program mentions. -/
theorem Program.module_realizes {p : Program} {md : Module} (h : p.module o = .ok md) :
    Realizes o p.codeMentions (md.units.flatMap ModuleUnit.instructions) := by
  obtain ⟨units, hunits, h⟩ := bind_eq_ok.1 h
  cases h
  exact unitsOf_realize hunits

/-- A path of a program of a source can be written down. -/
theorem Program.isWritable_of_mem_paths {source : String} {p : Program} (h : ofSource source = .ok p)
    {path : Path} (hpath : path ∈ p.paths) : path.isWritable = true := by
  obtain ⟨m, hm, hsome⟩ := List.mem_filterMap.1 hpath
  rw [← Mention.isWritable_of_path? hsome]
  exact ofSource_mentions h m hm

/-- **Distinct paths never share a global.**  Two paths of programs of any sources have one flattened text
only if they have the same segments.  The accesses of a module are those of the mentions of its program, one by
one; so the names that code has for paths read, assigned and called are the same exactly if the paths
are. -/
theorem Program.paths_apart {source source' : String} {p p' : Program} (h : ofSource source = .ok p)
    (h' : ofSource source' = .ok p') :
    (∀ a ∈ p.paths, ∀ b ∈ p'.paths, a.flatten = b.flatten ↔ a.segments = b.segments) ∧
    (∀ (o : Options) (md : Module), p.module o = .ok md →
      Instr.accesses (md.units.flatMap ModuleUnit.instructions)
        = p.codeMentions.filterMap (Mention.access? o)) ∧
    ∀ (o o' : Options), ∀ m ∈ p.codeMentions, ∀ m' ∈ p'.codeMentions, ∀ a b : Path,
      m.path? = some a → m'.path? = some b → ∃ x x', m.access? o = some x ∧ m'.access? o' = some x' ∧
        (x.name = x'.name ↔ a.segments = b.segments) := by
  have hinj : ∀ a ∈ p.paths, ∀ b ∈ p'.paths, a.flatten = b.flatten ↔ a.segments = b.segments :=
    fun a ha b hb => Path.flatten_inj (isWritable_of_mem_paths h ha) (isWritable_of_mem_paths h' hb)
  refine ⟨hinj, fun o md h => (module_realizes h).accesses, fun o o' m hm m' hm' a b ha hb => ?_⟩
  obtain ⟨x, hx, hname⟩ := Mention.access?_path ha o
  obtain ⟨x', hx', hname'⟩ := Mention.access?_path hb o'
  refine ⟨x, x', hx, hx', ?_⟩
  rw [hname, hname']
  exact hinj a (List.mem_filterMap.2 ⟨m, p.codeMentions_subset hm, ha⟩) b
    (List.mem_filterMap.2 ⟨m', p'.codeMentions_subset hm', hb⟩)

/-- The global `a.b` of one source is the one that the other source reads, and `ab` is another one. -/
theorem pointedPath_apart :
    ∃ p p', Program.ofSource "a.b = 1;" = .ok p ∧ Program.ofSource "ab = a.b;" = .ok p' ∧
      (∃ a ∈ p.paths, ∃ b ∈ p'.paths, ∃ c ∈ p'.paths, a.flatten = b.flatten ∧ a.flatten ≠ c.flatten) ∧
      ∃ md, p'.module {} = .ok md ∧
        Instr.accesses (md.units.flatMap ModuleUnit.instructions) = [.get "a.b", .set "ab"] := by
  have hread : (Program.ofSource "a.b = 1;").toOption.map (·.paths.map Path.segments)
      = some [["a", "b"]] := by decide +kernel
  have hread' : (Program.ofSource "ab = a.b;").toOption.map (fun p => (p.paths.map Path.segments,
      p.codeMentions.filterMap (Mention.access? {}), (p.module {}).toOption.isSome))
      = some ([["a", "b"], ["ab"]], [.get "a.b", .set "ab"], true) := by decide +kernel
  obtain ⟨p, h, hpaths⟩ := Option.map_eq_some_iff.1 hread
  obtain ⟨p', h', hpaths'⟩ := Option.map_eq_some_iff.1 hread'
  rw [toOption_eq_some] at h h'
  obtain ⟨hpaths', hnames, hmodule⟩ : _ ∧ _ ∧ _ := by simpa only [Prod.mk.injEq] using hpaths'
  obtain ⟨a, ha, hab⟩ := List.mem_map.1 (hpaths ▸ List.mem_cons_self : ["a", "b"] ∈ _)
  obtain ⟨b, hb, hbb⟩ := List.mem_map.1 (hpaths' ▸ List.mem_cons_self : ["a", "b"] ∈ _)
  obtain ⟨c, hc, hcc⟩ :=
    List.mem_map.1 (hpaths' ▸ List.mem_cons_of_mem _ List.mem_cons_self : ["ab"] ∈ _)
  obtain ⟨hapart, -⟩ := Program.paths_apart h h'
  obtain ⟨-, haccesses, -⟩ := Program.paths_apart h' h
  obtain ⟨md, hmd⟩ := Option.isSome_iff_exists.1 hmodule
  rw [toOption_eq_some] at hmd
  refine ⟨p, p', h, h', ⟨a, ha, b, hb, c, hc, (hapart a ha b hb).2 (hab.trans hbb.symm), fun heq => ?_⟩,
    md, hmd, (haccesses {} md hmd).trans hnames⟩
  have hsame := (hapart a ha c hc).1 heq
  rw [hab, hcc] at hsame
  revert hsame
  decide

end Chainlet
