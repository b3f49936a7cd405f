import Chainlet.Proofs.Printed.Line

/-!
# Proofs/Printed/Lines — the lines of instructions and functions

A block and a function end with a line that no instruction in them starts with.  So **the lines of an
instruction and of a function are read off the front of what follows them**
(`Instr.lines_append_inj`, `Function.lines_append_inj`).
-/

namespace Chainlet

/-! ## Indentation -/

theorem indent_succ (depth : Nat) : indent (depth + 1) = indent depth ++ "  " := by
  rw [indent, indent, ← String.toList_inj, String.toList_append, String.toList_ofList,
    String.toList_ofList, Nat.mul_add, ← List.replicate_append_replicate]
  rfl

theorem isLine_indent (depth : Nat) (text : String) :
    isLine (indent depth ++ text).toList = isLine text.toList := by
  have hblanks : isLine (indent depth).toList = true := by
    rw [indent, String.toList_ofList, isLine, List.all_replicate]
    split <;> rfl
  rw [String.toList_append, isLine_append, hblanks, Bool.true_and]

/-! ## Instructions -/

namespace Instr

theorem legible_of_mem {i : Instr} : {is : List Instr} → legibleAll is = true → i ∈ is →
    i.legible = true
  | j :: js, h, hi => by
    rw [legibleAll, Bool.and_eq_true] at h
    obtain rfl | hi := List.mem_cons.1 hi
    · exact h.1
    · exact legible_of_mem h.2 hi

/-- The lines behind the first one. -/
def inner (depth : Nat) : Instr → List String
  | block body => linesAll (depth + 1) body ++ [indent depth ++ ")"]
  | _ => []

theorem lines_eq (depth : Nat) (i : Instr) :
    lines depth i = (indent depth ++ i.head) :: i.inner depth := by
  cases i with
  | block body => rw [lines]; rfl
  | _ => simp only [lines, inner]

/-- The line that closes a level is not the first line of an instruction inside. -/
theorem close_ne (depth : Nat) (i : Instr) : indent depth ++ ")" ≠ indent (depth + 1) ++ i.head := by
  intro h
  rw [indent_succ, String.append_assoc, String.append_right_inj, ← String.toList_inj,
    String.toList_append] at h
  exact absurd (List.cons.inj h).1 (by decide)

theorem eq_block_of_shell {i : Instr} (h : i.shell = block []) : ∃ body, i = block body := by
  cases i with
  | block body => exact ⟨body, rfl⟩
  | _ => cases h

/-- Anything but a block is told by its only line. -/
theorem lines_append_inj_of_shell {i j : Instr} {depth : Nat} {x y : List String}
    (hshell : i.shell = i) (hblock : ∀ body, i ≠ block body) (hi : i.legible = true)
    (hj : j.legible = true) (h : lines depth i ++ x = lines depth j ++ y) : i = j ∧ x = y := by
  rw [lines_eq, lines_eq, List.cons_append, List.cons_append, List.cons.injEq,
    String.append_right_inj] at h
  have hij := shell_eq_of_head hi hj h.1
  have hji : j.shell = j := by
    cases j with
    | block body => exact absurd (hshell.symm.trans hij) (hblock [])
    | _ => rfl
  obtain rfl : i = j := hshell.symm.trans (hij.trans hji)
  exact ⟨rfl, List.append_cancel_left h.2⟩

mutual

/-- **The lines of an instruction are read off the front of what follows them.** -/
theorem lines_append_inj {depth : Nat} {x y : List String} : (i j : Instr) → i.legible = true →
    j.legible = true → lines depth i ++ x = lines depth j ++ y → i = j ∧ x = y := by
  intro i j hi hj h
  cases i with
  | block body =>
    rw [lines_eq, lines_eq, List.cons_append, List.cons_append, List.cons.injEq,
      String.append_right_inj] at h
    obtain ⟨body', rfl⟩ := eq_block_of_shell (shell_eq_of_head hi hj h.1).symm
    rw [inner, inner, List.append_assoc, List.append_assoc] at h
    obtain ⟨rfl, hxy⟩ := linesAll_append_inj body body' hi hj h.2
    exact ⟨rfl, hxy⟩
  | _ => exact lines_append_inj_of_shell rfl (fun _ => nofun) hi hj h

theorem linesAll_append_inj {depth : Nat} {x y : List String} : (is js : List Instr) →
    legibleAll is = true → legibleAll js = true →
    linesAll (depth + 1) is ++ (indent depth ++ ")") :: x
      = linesAll (depth + 1) js ++ (indent depth ++ ")") :: y → is = js ∧ x = y
  | [], [], _, _, h => ⟨rfl, (List.cons.inj h).2⟩
  | [], j :: js, _, _, h => by
    rw [linesAll, linesAll, lines_eq] at h
    exact absurd (List.cons.inj h).1 (close_ne depth j)
  | i :: is, [], _, _, h => by
    rw [linesAll, linesAll, lines_eq] at h
    exact absurd (List.cons.inj h).1.symm (close_ne depth i)
  | i :: is, j :: js, his, hjs, h => by
    rw [legibleAll, Bool.and_eq_true] at his hjs
    rw [linesAll, linesAll, List.append_assoc, List.append_assoc] at h
    obtain ⟨rfl, hrest⟩ := lines_append_inj i j his.1 hjs.1 h
    obtain ⟨rfl, hxy⟩ := linesAll_append_inj is js his.2 hjs.2 hrest
    exact ⟨rfl, hxy⟩

end

mutual

theorem isLine_lines {depth : Nat} : (i : Instr) → i.legible = true →
    ∀ line ∈ lines depth i, isLine line.toList = true := by
  intro i hi line hline
  rw [lines_eq, List.mem_cons] at hline
  cases i with
  | block body =>
    rw [inner, List.mem_append, List.mem_singleton] at hline
    obtain rfl | hbody | rfl := hline
    · exact (isLine_indent _ _).trans (isLine_head hi)
    · exact isLine_linesAll body hi line hbody
    · exact isLine_indent _ _
  | _ =>
    obtain rfl | hinner := hline
    · exact (isLine_indent _ _).trans (isLine_head hi)
    · cases hinner

theorem isLine_linesAll {depth : Nat} : (is : List Instr) → legibleAll is = true →
    ∀ line ∈ linesAll depth is, isLine line.toList = true
  | [], _, _, hline => by cases hline
  | i :: is, h, line, hline => by
    rw [legibleAll, Bool.and_eq_true] at h
    rw [linesAll, List.mem_append] at hline
    exact hline.elim (isLine_lines i h.1 line) (isLine_linesAll is h.2 line)

end

end Instr

/-! ## Functions -/

namespace Function

/-- Whether all names in a function are without blanks and its code is legible. -/
def legible (f : Function) : Bool :=
  isWord f.name && (f.parameters.all (·.all isWord) && (f.locals.all isWord &&
    Instr.legibleAll f.body))

/-- The declaration of a parameter, blank in front. -/
def parameterText : Option String → List Char
  | some name =>
    [' ', '(', 'p', 'a', 'r', 'a', 'm', ' ', '$'] ++ (name.toList ++ [' ', 'i', '3', '2', ')'])
  | none => [' ', '(', 'p', 'a', 'r', 'a', 'm', ' ', 'i', '3', '2', ')']

/-- The declaration of a local, blank in front. -/
def localText (name : String) : List Char :=
  [' ', '(', 'l', 'o', 'c', 'a', 'l', ' ', '$'] ++ (name.toList ++ [' ', 'i', '3', '2', ')'])

theorem toList_signature (f : Function) : f.signature.toList = "(func $".toList ++ (f.name.toList ++
    (f.parameters.flatMap parameterText ++ f.locals.flatMap localText)) := by
  rw [signature, String.toList_append, String.toList_append, String.toList_append,
    String.toList_join, String.toList_join, List.flatMap_map, List.flatMap_map, List.append_assoc,
    List.append_assoc]
  congr 4
  · funext p
    cases p with
    | none => rfl
    | some name =>
      rw [String.toList_append, String.toList_append, List.append_assoc]
      rfl
  · funext name
    rw [String.toList_append, String.toList_append, List.append_assoc]
    rfl

theorem prefixCode_parameterText :
    PrefixCode (fun p : Option String => p.all isWord = true) parameterText := by
  intro p q hp hq x y h
  match p, q with
  | none, none => exact ⟨rfl, List.append_cancel_left h⟩
  | none, some _ => simp [parameterText] at h
  | some _, none => simp [parameterText] at h
  | some name, some name' =>
    rw [parameterText, parameterText, List.append_assoc, List.append_assoc, List.append_assoc,
      List.append_assoc, List.append_cancel_left_eq] at h
    obtain ⟨rfl, hrest⟩ := append_inj_of_isWord hp hq h rfl rfl
    exact ⟨rfl, List.append_cancel_left hrest⟩

theorem prefixCode_localText : PrefixCode (fun name => isWord name = true) localText := by
  intro name name' hp hq x y h
  rw [localText, localText, List.append_assoc, List.append_assoc, List.append_assoc,
    List.append_assoc, List.append_cancel_left_eq] at h
  obtain ⟨rfl, hrest⟩ := append_inj_of_isWord hp hq h rfl rfl
  exact ⟨rfl, List.append_cancel_left hrest⟩

/-- The parameters end where the locals begin. -/
theorem stops_locals (names : List String) :
    Stops (fun p : Option String => p.all isWord = true) parameterText (names.flatMap localText) := by
  intro p _ y h
  cases names <;> cases p <;> simp [parameterText, localText] at h

theorem declarations_ends (f : Function) :
    EndsRun (· != ' ') (f.parameters.flatMap parameterText ++ f.locals.flatMap localText) := by
  match f.parameters, f.locals with
  | [], [] => rfl
  | [], _ :: _ => rfl
  | none :: _, _ => rfl
  | some _ :: _, _ => rfl

/-- **The line that declares a function tells its name, parameters and locals.** -/
theorem signature_inj {f g : Function} (hf : f.legible = true) (hg : g.legible = true)
    (h : f.signature = g.signature) :
    f.name = g.name ∧ f.parameters = g.parameters ∧ f.locals = g.locals := by
  simp only [legible, Bool.and_eq_true, List.all_eq_true] at hf hg
  rw [← String.toList_inj, toList_signature, toList_signature, List.append_cancel_left_eq] at h
  obtain ⟨hname, hrest⟩ := append_inj_of_isWord hf.1 hg.1 h f.declarations_ends
    g.declarations_ends
  obtain ⟨hparameters, hlocals⟩ := prefixCode_parameterText.flatMap (stops_locals _) (stops_locals _)
    hf.2.1 hg.2.1 hrest
  exact ⟨hname, hparameters, prefixCode_localText.flatMap_inj (fun _ _ => nofun) hf.2.2.1 hg.2.2.1
    hlocals⟩

/-- **The lines of a function are read off the front of what follows them.** -/
theorem lines_append_inj {f g : Function} {depth : Nat} {x y : List String} (hf : f.legible = true)
    (hg : g.legible = true) (h : f.lines depth ++ x = g.lines depth ++ y) : f = g ∧ x = y := by
  rw [lines, lines, List.cons_append, List.cons_append, List.cons.injEq, String.append_right_inj,
    List.append_assoc, List.append_assoc] at h
  obtain ⟨hname, hparameters, hlocals⟩ := signature_inj hf hg h.1
  simp only [legible, Bool.and_eq_true] at hf hg
  obtain ⟨hbody, hxy⟩ := Instr.linesAll_append_inj f.body g.body hf.2.2.2 hg.2.2.2 h.2
  cases f
  cases g
  subst hname hparameters hlocals hbody
  exact ⟨rfl, hxy⟩

theorem isLine_parameterText {p : Option String} (h : p.all isWord = true) :
    isLine (parameterText p) = true := by
  cases p with
  | none => rfl
  | some name =>
    rw [parameterText, isLine_append, isLine_append, isLine_of_isWord h]
    rfl

theorem isLine_localText {name : String} (h : isWord name = true) :
    isLine (localText name) = true := by
  rw [localText, isLine_append, isLine_append, isLine_of_isWord h]
  rfl

theorem isLine_signature {f : Function} (h : f.legible = true) :
    isLine f.signature.toList = true := by
  simp only [legible, Bool.and_eq_true, List.all_eq_true] at h
  have hparameters : isLine (f.parameters.flatMap parameterText) = true := by
    rw [isLine, List.all_flatMap, List.all_eq_true]
    exact fun p hp => isLine_parameterText (h.2.1 p hp)
  have hlocals : isLine (f.locals.flatMap localText) = true := by
    rw [isLine, List.all_flatMap, List.all_eq_true]
    exact fun name hname => isLine_localText (h.2.2.1 name hname)
  rw [toList_signature, isLine_append, isLine_append, isLine_append, isLine_of_isWord h.1,
    hparameters, hlocals]
  rfl

theorem isLine_lines {f : Function} {depth : Nat} (h : f.legible = true) :
    ∀ line ∈ f.lines depth, isLine line.toList = true := by
  intro line hline
  rw [lines, List.mem_cons, List.mem_append, List.mem_singleton] at hline
  obtain rfl | hbody | rfl := hline
  · exact (isLine_indent _ _).trans (isLine_signature h)
  · simp only [legible, Bool.and_eq_true] at h
    exact Instr.isLine_linesAll f.body h.2.2.2 line hbody
  · exact isLine_indent _ _

/-- No instruction starts like a function. -/
theorem signature_ne_head {f : Function} {i : Instr} (hi : i.legible = true) :
    f.signature ≠ i.head := by
  intro h
  have hread := Instr.ofLine?_head hi
  rw [← h, toList_signature] at hread
  have hwrong : Instr.ofLine? ("(func $".toList ++ (f.name.toList ++
      (f.parameters.flatMap parameterText ++ f.locals.flatMap localText))) = none := rfl
  rw [hwrong] at hread
  cases hread

end Function

end Chainlet
