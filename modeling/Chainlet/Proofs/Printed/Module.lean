import Chainlet.Proofs.Printed.Lines

/-!
# Proofs/Printed/Module — the text of a module tells the module

Code at module scope has no lines of its own around it: its instructions stand in the text as if each
of them was a unit.  A module is known by its text **up to where its code is cut into units**
(`Module.text_eq_iff`): `ModuleUnit.join` puts code together that no function stands between, and
leaves out units without any.
-/

namespace Chainlet

namespace ModuleUnit

/-! ## Units in pieces -/

/-- The units of a single instruction, or a function, that a unit consists of. -/
def atoms : ModuleUnit → List ModuleUnit
  | code body => body.map fun i => code [i]
  | function f => [function f]

/-- Whether all names in a unit are without blanks and all its constants are numbers. -/
def legible : ModuleUnit → Bool
  | code body => Instr.legibleAll body
  | function f => f.legible

/-- A unit of one instruction, or a function. -/
def IsAtom (u : ModuleUnit) : Prop :=
  (∃ i, i.legible = true ∧ u = code [i]) ∨ ∃ f, f.legible = true ∧ u = function f

theorem isAtom_atoms {u : ModuleUnit} (h : u.legible = true) : ∀ v ∈ u.atoms, v.IsAtom := by
  cases u with
  | code body =>
    intro v hv
    obtain ⟨i, hi, rfl⟩ := List.mem_map.1 hv
    exact .inl ⟨i, Instr.legible_of_mem h hi, rfl⟩
  | function f =>
    intro v hv
    obtain rfl := List.mem_singleton.1 hv
    exact .inr ⟨f, h, rfl⟩

theorem lines_single (i : Instr) : lines (code [i]) = Instr.lines 1 i := List.append_nil _

theorem lines_code (body : List Instr) :
    (body.map fun i => code [i]).flatMap lines = Instr.linesAll 1 body := by
  induction body with
  | nil => rfl
  | cons i is ih =>
    rw [List.map_cons, List.flatMap_cons, ih, lines_single]
    rfl

/-- A unit has the lines of its pieces. -/
theorem lines_atoms (u : ModuleUnit) : u.atoms.flatMap lines = u.lines := by
  cases u with
  | code body => exact lines_code body
  | function f => exact List.append_nil _

theorem flatMap_lines_atoms (us : List ModuleUnit) :
    (us.flatMap atoms).flatMap lines = us.flatMap lines := by
  rw [List.flatMap_assoc]
  exact congrArg (us.flatMap ·) (funext lines_atoms)

/-- **The pieces of units are read off their lines.** -/
theorem prefixCode_lines : PrefixCode IsAtom lines := by
  rintro u v (⟨i, hi, rfl⟩ | ⟨f, hf, rfl⟩) (⟨j, hj, rfl⟩ | ⟨g, hg, rfl⟩) x y h
  · rw [lines_single, lines_single] at h
    obtain ⟨rfl, hxy⟩ := Instr.lines_append_inj i j hi hj h
    exact ⟨rfl, hxy⟩
  · rw [lines_single, Instr.lines_eq] at h
    exact absurd ((String.append_right_inj _).1 (List.cons.inj h).1).symm
      (Function.signature_ne_head hi)
  · rw [lines_single, Instr.lines_eq] at h
    exact absurd ((String.append_right_inj _).1 (List.cons.inj h).1) (Function.signature_ne_head hj)
  · obtain ⟨rfl, hxy⟩ := Function.lines_append_inj hf hg h
    exact ⟨rfl, hxy⟩

theorem lines_ne_nil {u : ModuleUnit} (h : u.IsAtom) : u.lines ≠ [] := by
  obtain ⟨i, -, rfl⟩ | ⟨f, -, rfl⟩ := h
  · rw [lines_single, Instr.lines_eq]
    exact List.cons_ne_nil _ _
  · exact List.cons_ne_nil _ _

/-! ## Units put together -/

/-- Units with code in front, which joins the code that they start with. -/
def prepend : List Instr → List ModuleUnit → List ModuleUnit
  | [], us => us
  | i :: is, code body :: us => code (i :: is ++ body) :: us
  | i :: is, us => code (i :: is) :: us

/-- **Units without those that have no code, and with code put together that stands next to code.** -/
def join : List ModuleUnit → List ModuleUnit
  | [] => []
  | code body :: us => prepend body (join us)
  | function f :: us => function f :: join us

theorem prepend_cons (i : Instr) (is : List Instr) (us : List ModuleUnit) :
    prepend (i :: is) us = prepend [i] (prepend is us) := by
  match is, us with
  | [], _ => rfl
  | _ :: _, [] => rfl
  | _ :: _, code _ :: _ => rfl
  | _ :: _, function _ :: _ => rfl

theorem join_code (body : List Instr) (us : List ModuleUnit) :
    join ((body.map fun i => code [i]) ++ us) = prepend body (join us) := by
  induction body with
  | nil => rfl
  | cons i is ih => rw [List.map_cons, List.cons_append, join, ih, ← prepend_cons]

/-- Units in pieces are put together to the same units. -/
theorem join_atoms (us : List ModuleUnit) : join (us.flatMap atoms) = join us := by
  induction us with
  | nil => rfl
  | cons u us ih =>
    rw [List.flatMap_cons]
    cases u with
    | code body => rw [atoms, join_code, ih, join]
    | function f => rw [atoms, List.singleton_append, join, ih, join]

theorem atoms_prepend (body : List Instr) (us : List ModuleUnit) :
    (prepend body us).flatMap atoms = (body.map fun i => code [i]) ++ us.flatMap atoms := by
  match body, us with
  | [], _ => rfl
  | _ :: _, [] => rfl
  | i :: is, code body :: us =>
    rw [prepend, List.flatMap_cons, atoms, List.map_append, List.append_assoc]
    rfl
  | _ :: _, function _ :: _ => rfl

/-- Units put together have the same pieces. -/
theorem atoms_join (us : List ModuleUnit) : (join us).flatMap atoms = us.flatMap atoms := by
  induction us with
  | nil => rfl
  | cons u us ih =>
    rw [List.flatMap_cons]
    cases u with
    | code body => rw [join, atoms_prepend, ih, atoms]
    | function f => rw [join, List.flatMap_cons, ih]

theorem join_eq_iff {us vs : List ModuleUnit} :
    join us = join vs ↔ us.flatMap atoms = vs.flatMap atoms := by
  constructor
  · intro h
    rw [← atoms_join, h, atoms_join]
  · intro h
    rw [← join_atoms, h, join_atoms]

/-- **Units have the same lines only if they are the same put together.** -/
theorem lines_eq_iff {us vs : List ModuleUnit} (hus : us.all legible = true)
    (hvs : vs.all legible = true) : us.flatMap lines = vs.flatMap lines ↔ join us = join vs := by
  rw [join_eq_iff, ← flatMap_lines_atoms us, ← flatMap_lines_atoms vs]
  refine ⟨prefixCode_lines.flatMap_inj (fun _ => lines_ne_nil) ?_ ?_, congrArg (List.flatMap lines)⟩
  · intro v hv
    obtain ⟨u, hu, hv⟩ := List.mem_flatMap.1 hv
    exact isAtom_atoms (List.all_eq_true.1 hus u hu) v hv
  · intro v hv
    obtain ⟨u, hu, hv⟩ := List.mem_flatMap.1 hv
    exact isAtom_atoms (List.all_eq_true.1 hvs u hu) v hv

theorem isLine_lines {u : ModuleUnit} (h : u.legible = true) :
    ∀ line ∈ u.lines, isLine line.toList = true := by
  cases u with
  | code body => exact Instr.isLine_linesAll body h
  | function f => exact Function.isLine_lines h

end ModuleUnit

/-! ## Modules -/

theorem toList_joinLines (lines : List String) :
    (joinLines lines).toList = lines.flatMap fun line => line.toList ++ ['\n'] := by
  rw [joinLines, String.toList_join, List.flatMap_map]
  exact congrArg (lines.flatMap ·) (funext fun line => String.toList_append)

theorem prefixCode_line : PrefixCode (fun line : String => isLine line.toList = true)
    fun line => line.toList ++ ['\n'] := by
  intro a b ha hb x y h
  rw [List.append_assoc, List.append_assoc] at h
  obtain ⟨hline, hrest⟩ := append_inj_of_run ha hb h rfl rfl
  exact ⟨String.toList_inj.1 hline, (List.cons.inj hrest).2⟩

/-- **Lines are read off the text that they are joined to.** -/
theorem joinLines_inj {a b : List String} (ha : ∀ line ∈ a, isLine line.toList = true)
    (hb : ∀ line ∈ b, isLine line.toList = true) (h : joinLines a = joinLines b) : a = b := by
  rw [← String.toList_inj, toList_joinLines, toList_joinLines] at h
  exact prefixCode_line.flatMap_inj (fun line _ => List.append_ne_nil_of_right_ne_nil _ nofun) ha hb h

namespace Module

/-- Whether all names in a module are without blanks and all its constants are numbers. -/
def legible (m : Module) : Bool := isWord m.heapGlobal && m.units.all ModuleUnit.legible

theorem isLine_header {m : Module} (h : isWord m.heapGlobal = true) :
    ∀ line ∈ m.header, isLine line.toList = true := by
  simp only [header, List.forall_mem_cons, String.toList_append, isLine_append, toList_toString,
    isLine_digits, isLine_of_isWord h, Bool.and_true]
  exact ⟨rfl, rfl, rfl, nofun⟩

theorem isLine_lines {m : Module} (h : m.legible = true) :
    ∀ line ∈ m.lines, isLine line.toList = true := by
  rw [legible, Bool.and_eq_true] at h
  intro line hline
  rw [lines, List.mem_append, List.mem_append, List.mem_singleton] at hline
  obtain (hheader | hunits) | rfl := hline
  · exact isLine_header h.1 line hheader
  · obtain ⟨u, hu, hline⟩ := List.mem_flatMap.1 hunits
    exact ModuleUnit.isLine_lines (List.all_eq_true.1 h.2 u hu) line hline
  · rfl

/-- The lines in front of the units tell the memory and the heap pointer. -/
theorem header_inj {m m' : Module} (h : isWord m.heapGlobal = true)
    (h' : isWord m'.heapGlobal = true) (heq : m.header = m'.header) :
    m.memoryPages = m'.memoryPages ∧ m.heapGlobal = m'.heapGlobal ∧ m.heapBase = m'.heapBase := by
  rw [header, header, List.cons.injEq, List.cons.injEq, List.cons.injEq] at heq
  obtain ⟨-, hmemory, hglobal, -⟩ := heq
  rw [String.append_left_inj, String.append_right_inj, toString_inj, UInt32.toNat_inj] at hmemory
  rw [String.append_left_inj, String.append_assoc, String.append_assoc, String.append_assoc,
    String.append_assoc, String.append_right_inj, ← String.toList_inj, String.toList_append,
    String.toList_append, String.toList_append, String.toList_append] at hglobal
  obtain ⟨hname, hbase⟩ := append_inj_of_isWord h h' hglobal rfl rfl
  rw [List.append_cancel_left_eq, String.toList_inj, toString_inj, UInt32.toNat_inj] at hbase
  exact ⟨hmemory, hname, hbase⟩

/-- **The text of a module tells the memory, the heap pointer and the units**, up to where code is
cut into units. -/
theorem text_eq_iff {m m' : Module} (h : m.legible = true) (h' : m'.legible = true) :
    m.text = m'.text ↔ m.memoryPages = m'.memoryPages ∧ m.heapGlobal = m'.heapGlobal ∧
      m.heapBase = m'.heapBase ∧ ModuleUnit.join m.units = ModuleUnit.join m'.units := by
  have hlegible := (Bool.and_eq_true _ _).mp h
  have hlegible' := (Bool.and_eq_true _ _).mp h'
  rw [← ModuleUnit.lines_eq_iff hlegible.2 hlegible'.2]
  constructor
  · intro heq
    have hlines : m.lines = m'.lines := joinLines_inj (isLine_lines h) (isLine_lines h') heq
    obtain ⟨hfront, -⟩ := List.append_inj' hlines rfl
    obtain ⟨hheader, hunits⟩ := List.append_inj hfront rfl
    obtain ⟨hpages, hglobal, hbase⟩ := header_inj hlegible.1 hlegible'.1 hheader
    exact ⟨hpages, hglobal, hbase, hunits⟩
  · rintro ⟨hpages, hglobal, hbase, hunits⟩
    rw [text, text, lines, lines, header, header, hpages, hglobal, hbase, hunits]

/-- Code in one unit reads as the same code in two, with an empty unit between them, and a block in a
block does not read as two blocks. -/
theorem text_of_recut :
    let f : Function := ⟨"f", [some "x", none], ["addr"], [.f32Const ⟨0x3F800000⟩, .localGet "x"]⟩
    let m (units : List ModuleUnit) : Module := ⟨1, "heap", 1024, .function f :: units⟩
    (m [.code [.i32Const 7], .code [], .code [.call "f"]]).text
        = (m [.code [.i32Const 7, .call "f"]]).text ∧
      (m [.code [.block [.block []]]]).text ≠ (m [.code [.block [], .block []]]).text := by
  refine ⟨(text_eq_iff (by decide) (by decide)).2 ⟨rfl, rfl, rfl, rfl⟩, fun h => ?_⟩
  have hunits := ((text_eq_iff (by decide) (by decide)).1 h).2.2.2
  simp [ModuleUnit.join, ModuleUnit.prepend] at hunits

end Module

end Chainlet
