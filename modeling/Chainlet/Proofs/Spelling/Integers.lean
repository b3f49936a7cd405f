import Chainlet.Proofs.Code.Accesses
import Chainlet.Proofs.Grammar.Elements
import Chainlet.Proofs.Grammar.Step
import Chainlet.Proofs.Spelling.Digits
import Chainlet.Proofs.Spelling.Literals

/-!
# Proofs/Spelling/Integers — integer literals mean the numbers that they spell

An integer in front of a semicolon is read as one literal of its base, whatever its digits
(`Program.ofSource_int`).  Its code is the constant of the number that it spells, or a refusal for that
literal if the number does not fit in a word (`Literal.code_int`).  Since every integer of the program of
a source is spelled by its text, **integer literals mean their value** (`Program.integers_mean`).
-/

namespace Chainlet

open Production Grammar

/-! ## Words of digits -/

namespace Lexeme

variable {word tail : List Char}

theorem decimal_append (h : Form.digits Char.isDigit word = true) (htail : EndsNumber tail) :
    decimal (word ++ tail) = some (word, tail) :=
  unglued_eq_some.2 ⟨digits_append_end (fun _ => isNameChar_of_isDigit) h htail,
    htail.not_any fun c hc => by rw [hc, Bool.true_or]⟩

theorem based_append {mark : List Char} {isDigit : Char → Bool}
    (hdigit : ∀ c, isDigit c = true → isNameChar c = true) (h : Form.based mark isDigit word = true)
    (htail : EndsNumber tail) : based mark isDigit (word ++ tail) = some (word, tail) := by
  rw [Form.based, Bool.and_eq_true] at h
  obtain ⟨digits, rfl⟩ := List.isPrefixOf_iff_prefix.1 h.1
  rw [List.drop_left] at h
  refine unglued_eq_some.2 ⟨?_, htail.not_any fun c hc => by rw [hc, Bool.true_or]⟩
  rw [List.append_assoc]
  exact glue_eq_some.2 ⟨mark, digits ++ tail, digits, exactly_append .., digits_append_end hdigit h.2 htail,
    rfl⟩

end Lexeme

/-- The digits of every base may stand in names. -/
theorem Base.isNameChar_of_isDigit (b : Base) (c : Char) (h : b.isDigit c = true) :
    isNameChar c = true := by
  obtain ⟨v, hv⟩ := (b.isDigit_iff c).1 h
  have hrange := (digitValue?_iff_toNat.1 hv).2
  rw [isNameChar, Char.isAlphanum, Bool.or_eq_true, Bool.or_eq_true, isAlpha_iff, isDigit_iff_toNat]
  omega

/-- Every integer starts with a decimal digit. -/
theorem Base.starts {b : Base} {w : Word} (h : b.form w = true) :
    ∃ c cs, w = c :: cs ∧ c.isDigit = true := by
  obtain ⟨digits, rfl, hdigits⟩ := form_iff_digits.1 h
  cases b with
  | decimal =>
    cases digits with
    | nil => cases hdigits
    | cons c cs => exact ⟨c, cs, rfl, ((Bool.and_eq_true ..).mp hdigits).1⟩
  | binary | hexadecimal | octal => exact ⟨'0', _, rfl, rfl⟩

namespace Grammar

variable {n : Nat} {inner : Production} {b : Base} {w : Word} {tail : List Char} {c : Cursor}

/-- In front of a digit there is no list and no string. -/
theorem literal_eq_number (hc : c.rest.head?.any Char.isDigit = true) :
    literal n inner c = firstOf wordLiterals.tail c := by
  have hother : ∀ d : Char, d.isDigit = false → c.rest.head?.any (· == d) = false := by
    intro d hd
    obtain ⟨x, hx, hdigit⟩ := (Option.any_eq_true ..).1 hc
    rw [hx, Option.any_some, beq_eq_false_iff_ne]
    rintro rfl
    rw [hd] at hdigit
    cases hdigit
  have hlist : ∀ (rule : Rule) (k : Char) (closing : List Char) (p : Production),
      bracketed n rule ['$', k] closing p c = none :=
    fun rule k closing p => (bracketed_startsWith n rule '$' [k] closing p).fails (hother '$' rfl)
  have hstring : leaf .stringLiteral .string c = none :=
    (leaf_startsWith string_startsWith _).fails (hother '"' rfl)
  simp only [literal, firstOf, List.findSome?_cons, hlist, hstring]
  rfl

/-- **An integer is read as a literal of its base**, not as a float or as one of another base. -/
theorem literal_int (h : b.form w = true) (htail : EndsNumber tail) (hc : c.rest = w ++ tail) :
    literal n inner c = some (.node b.rule (String.ofList w) (some c.offset) [], c.after w tail) := by
  obtain ⟨x, xs, hw, hx⟩ := Base.starts h
  have hnumber : literal n inner c = firstOf wordLiterals.tail c :=
    literal_eq_number (by rw [hc, hw]; exact hx)
  have hnone : ∀ {rule : Rule} {l : Lexeme}, l (w ++ tail) = none → leaf rule l c = none := by
    intro rule l hl
    rw [leaf, hc, hl]
    rfl
  have hsome : ∀ {rule : Rule} {l : Lexeme}, l (w ++ tail) = some (w, tail) → leaf rule l c
      = some (.node rule (String.ofList w) (some c.offset) [], c.after w tail) := by
    intro rule l hl
    rw [leaf, hc, hl]
    rfl
  have hdigit := b.isNameChar_of_isDigit
  rw [hnumber]
  cases b with
  | decimal =>
    have hbased : ∀ (mark : Char) (isDigit : Char → Bool),
        isNameChar mark = true ∧ (mark.isDigit || mark == '_') = false →
        ∀ rule, leaf rule (.based ['0', mark] isDigit) c = none :=
      fun mark isDigit hmark rule => hnone (Lexeme.based_digits_none hmark h htail)
    simp only [wordLiterals, List.tail_cons, firstOf, List.findSome?_cons,
      hnone (Lexeme.float_digits_none h htail), Lexeme.hex, Lexeme.binary, Lexeme.octal,
      hbased 'x' _ (by decide), hbased 'b' _ (by decide), hbased 'c' _ (by decide),
      hsome (Lexeme.decimal_append h htail)]
    rfl
  | hexadecimal =>
    have hread : leaf .hexLiteral .hex c = some _ := hsome (Lexeme.based_append hdigit h htail)
    obtain ⟨digits, rfl, -⟩ := Base.form_iff_digits.1 h
    simp only [wordLiterals, List.tail_cons, firstOf, List.findSome?_cons, hnone (l := .float) rfl, hread]
    rfl
  | binary =>
    have hread : leaf .binaryLiteral .binary c = some _ := hsome (Lexeme.based_append hdigit h htail)
    obtain ⟨digits, rfl, -⟩ := Base.form_iff_digits.1 h
    simp only [wordLiterals, List.tail_cons, firstOf, List.findSome?_cons, hnone (l := .float) rfl,
      hnone (l := .hex) rfl, hread]
    rfl
  | octal =>
    have hread : leaf .octalLiteral .octal c = some _ := hsome (Lexeme.based_append hdigit h htail)
    obtain ⟨digits, rfl, -⟩ := Base.form_iff_digits.1 h
    simp only [wordLiterals, List.tail_cons, firstOf, List.findSome?_cons, hnone (l := .float) rfl,
      hnone (l := .hex) rfl, hnone (l := .binary) rfl, hread]
    rfl

/-! ## An integer and a semicolon -/

variable {m : Nat} {rest : List Char}

theorem endsNumber_semicolon (rest : List Char) : EndsNumber (';' :: rest) := rfl

/-- There is no blank in front of a visible character. -/
theorem skipBlank_of_visible {x : Char} {xs : List Char} (hx : isVisible x = true)
    (hc : c.rest = x :: xs) : c.skipBlank = c := by
  obtain ⟨_, offset⟩ := c
  cases hc
  simp [Cursor.skipBlank, Cursor.after, isBlank_eq_false hx]

/-- A production that starts with some sign does not start with a digit. -/
theorem fails_of_isDigit {α : Type} {p : Cursor → Option α} {k x : Char} {xs : List Char}
    (h : StartsWith p (· == k)) (hx : x.isDigit = true) (hk : k.isDigit = false) (hc : c.rest = x :: xs) :
    p c = none := by
  refine h.fails ?_
  rw [hc]
  refine beq_eq_false_iff_ne.2 ?_
  rintro rfl
  rw [hk] at hx
  cases hx

theorem wrap_read {p : Production} {t : Tree} {d : Cursor} (rule : Rule) (h : p c = some (t, d)) :
    wrap rule p c = some (branch rule c d [t], d) := by
  rw [wrap, h]
  rfl

theorem either_read {p q : Production} {r : Tree × Cursor} (hp : p c = none) (hq : q c = some r) :
    either p q c = some r := by
  rw [either, hp]
  exact hq

theorem firstOf_read {p : Production} {ps : List Production} {r : Tree × Cursor} (h : p c = some r) :
    firstOf (p :: ps) c = some r := by
  rw [firstOf, List.findSome?_cons, h]

/-- **In front of a semicolon, an integer is a whole expression.** -/
theorem expressionAt_int (h : b.form w = true) (hc : c.rest = w ++ ';' :: rest)
    (hm : c.rest.length < m + 1) : ∃ text₁ text₂ : String, expressionAt (m + 1) c
      = some (.node .operandExpression text₁ (some c.offset) [.node .literalOperand text₂ (some c.offset)
          [.node b.rule (String.ofList w) (some c.offset) []]], c.after w (';' :: rest)) := by
  obtain ⟨x, xs, rfl, hx⟩ := Base.starts h
  have hcall : call m (expressionAt m) c = none := fails_of_isDigit call_startsWith hx rfl hc
  have hliteral := wrap_read (p := literal m (expressionAt m)) .literalOperand
    (literal_int h (endsNumber_semicolon rest) hc)
  have hoperand : operand m (expressionAt m) c = some _ := firstOf_read hliteral
  have hhead : chainHead m (expressionAt m) c = some _ :=
    either_read hcall (wrap_read .operandExpression hoperand)
  have hlink : link m (expressionAt m) (c.after (x :: xs) (';' :: rest)) = none := by
    rw [link, skipBlank_of_visible (x := ';') rfl rfl]
    rfl
  exact ⟨_, _, chain_eq (expressionAt_reads m) hm hhead .nil hlink⟩

/-- An integer and a semicolon are an element. -/
theorem elementWith_int (h : b.form w = true) (hc : c.rest = w ++ ';' :: rest)
    (hn : c.rest.length ≤ n) : ∃ text₁ text₂ text₃ text₄ : String,
      elementWith n (expressionAt (n + 1)) c = some (.node .itemElement text₁ (some c.offset)
        [.node .expressionItem text₂ (some c.offset) [.node .operandExpression text₃ (some c.offset)
          [.node .literalOperand text₄ (some c.offset)
            [.node b.rule (String.ofList w) (some c.offset) []]]]],
        (c.after w (';' :: rest)).after [';'] rest) := by
  obtain ⟨text₃, text₄, hread⟩ := expressionAt_int h hc (Nat.lt_succ_of_le hn)
  obtain ⟨x, xs, rfl, hx⟩ := Base.starts h
  have hdoc : wrap .docElement (leaf .docComment .docComment) c = none :=
    fails_of_isDigit (wrap_startsWith (leaf_startsWith ((exactly_startsWith '#' ['#']).glue _) _) _)
      hx rfl hc
  have hstatement : wrap .statementItem (statement n (expressionAt (n + 1))) c = none := by
    refine (wrap_startsWith statement_startsWith _).fails ?_
    rw [hc]
    refine Bool.or_eq_false_iff.2 ⟨isNameStart_of_isDigit hx, beq_eq_false_iff_ne.2 ?_⟩
    rintro rfl
    cases hx
  have hitem : item n (expressionAt (n + 1)) c = some _ :=
    either_read hstatement (wrap_read .expressionItem hread)
  have hsign : sign semicolon (c.after (x :: xs) (';' :: rest)).skipBlank
      = some ((c.after (x :: xs) (';' :: rest)).after [';'] rest) := by
    rw [skipBlank_of_visible (x := ';') rfl rfl]
    rfl
  have helement : itemElement n (expressionAt (n + 1)) c = some _ :=
    Option.bind_eq_some_iff.2 ⟨_, hitem, Option.bind_eq_some_iff.2 ⟨_, hsign, rfl⟩⟩
  exact ⟨_, _, text₃, text₄, either_read hdoc helement⟩

/-- An integer and a semicolon at the end of a source are its only element. -/
theorem elements_int (h : b.form w = true) (hc : c.rest = w ++ [';']) :
    ∃ (text₁ text₂ text₃ text₄ : String) (stop : Cursor), elements c.skipBlank
      = ([.node .itemElement text₁ (some c.offset) [.node .expressionItem text₂ (some c.offset)
          [.node .operandExpression text₃ (some c.offset) [.node .literalOperand text₄ (some c.offset)
            [.node b.rule (String.ofList w) (some c.offset) []]]]]], stop) ∧ stop.rest = [] := by
  obtain ⟨x, xs, hw, hx⟩ := Base.starts h
  have hskip : c.skipBlank = c :=
    skipBlank_of_visible (isVisible_of_isDigit hx) (hc.trans (by rw [hw, List.cons_append]))
  obtain ⟨text₁, text₂, text₃, text₄, hread⟩ := elementWith_int h hc (Nat.le_refl _)
  have hstep : elementStep c.rest.length c = some _ :=
    (congrArg (elementWith c.rest.length (expressionAt (c.rest.length + 1))) hskip).trans hread
  have helements := elements_eq_of_steps (.cons hstep .nil) (elementStep_none rfl)
  rw [hskip]
  exact ⟨text₁, text₂, text₃, text₄, _, helements, rfl⟩

end Grammar

/-! ## The program of an integer -/

/-- What is built from an integer that stands alone. -/
theorem Program.ofTree_int {b : Base} {text text₀ text₁ text₂ text₃ text₄ : String}
    {s s₀ s₁ s₂ s₃ s₄ : Option Nat} : ∃ span span', ofTree (.node .program text₀ s₀
      [.node .itemElement text₁ s₁ [.node .expressionItem text₂ s₂ [.node .operandExpression text₃ s₃
        [.node .literalOperand text₄ s₄ [.node b.rule text s []]]]]])
      = .ok ⟨[.item (.expression (.operand (.literal (.int text b span))))], span'⟩ := by
  cases b <;> exact ⟨_, _, rfl⟩

/-- **An integer in front of a semicolon is read as one literal of its base**, with its own text. -/
theorem Program.ofSource_int {b : Base} {w : Word} (h : b.form w = true) :
    ∃ span span', ofSource (String.ofList (w ++ [';']))
      = .ok ⟨[.item (.expression (.operand (.literal (.int (String.ofList w) b span))))], span'⟩ := by
  obtain ⟨text₁, text₂, text₃, text₄, stop, helements, hstop⟩ :=
    elements_int (c := Cursor.ofSource (String.ofList (w ++ [';']))) h String.toList_ofList
  obtain ⟨text, start, htree⟩ := Tree.ofSource_of_elements helements hstop
  obtain ⟨span, span', hbuilt⟩ := Program.ofTree_int (b := b)
  exact ⟨span, span', ofSource_eq_ok.2 ⟨_, htree, hbuilt⟩⟩

/-! ## Code -/

/-- The code of an integer literal, from the number that it spells. -/
theorem Literal.code_int {b : Base} {text : String} {n : Nat} (h : b.SpellsNumber text.toList n)
    (o : Options) (span : Option Span) : (Literal.int text b span).code o
      = if n < UInt32.size then .ok [.i32Const (UInt32.ofNat n)] else .error (.invalidInteger text) := by
  rw [code, h.intValue?_eq, word?]
  split_ifs <;> rfl

/-- The module of an integer that stands alone. -/
theorem Program.module_int {b : Base} {text : String} {n : Nat} (h : b.SpellsNumber text.toList n)
    (o : Options) (span span' : Option Span) :
    (Program.mk [.item (.expression (.operand (.literal (.int text b span))))] span').module o
      = if n < UInt32.size then
          .ok ⟨o.memoryPages, o.heapGlobal, o.heapBase, [.code [.i32Const (UInt32.ofNat n)]]⟩
        else .error (.invalidInteger text) := by
  have hcode : Item.code o (.expression (.operand (.literal (.int text b span))))
      = (Literal.int text b span).code o := Expression.code_operand o _
  rw [Program.module, unitsOf, Element.unit?, hcode, Literal.code_int h]
  · split_ifs <;> rfl
  · exact nofun

/-- A constant is printed in decimal. -/
theorem Module.lines_const {md : Module} {n : Nat} (h : n < UInt32.size)
    (hmd : md.units = [.code [.i32Const (UInt32.ofNat n)]]) :
    md.lines = md.header ++ ["  i32.const " ++ toString n, ")"] := by
  have hline : indent 1 ++ (Instr.i32Const (UInt32.ofNat n)).head = "  i32.const " ++ toString n := by
    rw [Instr.head, UInt32.toNat_ofNat_of_lt' h, ← String.append_assoc]
    rfl
  rw [lines, hmd, List.append_assoc, ← hline]
  rfl

/-- **Integer literals mean their value.**  Every integer of a program that was read spells one number in
its base.  Its code is the constant of that number, or it is refused as an invalid literal, with its
own text, if the number does not fit in a word; and a program with such a literal in its code has no module.
Conversely, every spelling of a number that does fit, in front of a semicolon, is a program whose module
is that constant, printed in decimal. -/
theorem Program.integers_mean :
    (∀ (source : String) (p : Program), ofSource source = .ok p →
      ∀ text b, Mention.int text b ∈ p.mentions →
        ∃ n, (∀ m, b.SpellsNumber text.toList m ↔ m = n) ∧
          (∀ o span,
            (n < 2 ^ 32 → (Literal.int text b span).code o = .ok [.i32Const (UInt32.ofNat n)]) ∧
            (2 ^ 32 ≤ n → ∃ r, (Literal.int text b span).code o = .error r ∧
              r.kind.label = "InvalidLiteral" ∧ r.detail = text)) ∧
          ∀ o md, p.module o = .ok md → Mention.int text b ∈ p.codeMentions → n < 2 ^ 32) ∧
    ∀ (b : Base) (w : Word) (n : Nat), b.SpellsNumber w n →
      ∃ p, ofSource (String.ofList (w ++ [';'])) = .ok p ∧ ∀ o,
        (n < 2 ^ 32 → ∃ md, p.module o = .ok md ∧ md.units = [.code [.i32Const (UInt32.ofNat n)]] ∧
          md.lines = md.header ++ ["  i32.const " ++ toString n, ")"]) ∧
        (2 ^ 32 ≤ n → ∃ r, p.module o = .error r ∧ r.kind.label = "InvalidLiteral" ∧
          r.detail = String.ofList w) := by
  refine ⟨fun source p h text b hmem => ?_, fun b w n h => ?_⟩
  · obtain ⟨n, hn⟩ := Base.form_iff.1 (ofSource_mentions h _ hmem)
    refine ⟨n, fun m => ⟨fun hm => hn.unique hm, fun heq => heq ▸ hn⟩, fun o span => ⟨fun hlt => ?_,
      fun hle => ⟨.invalidInteger text, ?_, rfl, rfl⟩⟩, fun o md hmd hcode => ?_⟩
    · exact (Literal.code_int hn o span).trans (if_pos hlt)
    · exact (Literal.code_int hn o span).trans (if_neg (Nat.not_lt.2 hle))
    · obtain ⟨word, hword⟩ := (module_realizes hmd).fits text b hcode
      rw [hn.intValue?_eq, word?] at hword
      split at hword
      · assumption
      · cases hword
  · obtain ⟨span, span', hread⟩ := ofSource_int (Base.form_iff.2 ⟨n, h⟩)
    rw [← String.toList_ofList (l := w)] at h
    refine ⟨_, hread, fun o => ⟨fun hlt => ?_, fun hle => ⟨.invalidInteger (String.ofList w), ?_, rfl, rfl⟩⟩⟩
    · exact ⟨_, (module_int h o span span').trans (if_pos hlt), rfl, Module.lines_const hlt rfl⟩
    · exact (module_int h o span span').trans (if_neg (Nat.not_lt.2 hle))

/-- A hexadecimal in both cases with an underscore, and the first decimal that does not fit. -/
theorem Program.integers_mean_boundary :
    (∃ p md, ofSource "0x0_fF;" = .ok p ∧ Mention.int "0x0_fF" .hexadecimal ∈ p.mentions ∧
      Base.SpellsNumber .hexadecimal "0x0_fF".toList 255 ∧
      (∀ o span, (Literal.int "0x0_fF" .hexadecimal span).code o = .ok [.i32Const 255]) ∧
      p.module {} = .ok md ∧ md.lines = md.header ++ ["  i32.const 255", ")"]) ∧
    ∃ p r, ofSource "4294967296;" = .ok p ∧ p.module {} = .error r ∧
      r.kind.label = "InvalidLiteral" ∧ r.detail = "4294967296" := by
  have hspells : Base.SpellsNumber .hexadecimal "0x0_fF".toList 255 :=
    ⟨['0', '_', 'f', 'F'], [0, 15, 15], by decide, by decide, by decide, by decide, by decide, by decide⟩
  have hspells' : Base.SpellsNumber .decimal "4294967296".toList 4294967296 :=
    ⟨"4294967296".toList, [4, 2, 9, 4, 9, 6, 7, 2, 9, 6], by decide, by decide, by decide, by decide,
      by decide, by decide⟩
  have hmentions : (ofSource "0x0_fF;").toOption.map mentions = some [.int "0x0_fF" .hexadecimal] := by
    decide +kernel
  obtain ⟨hmeans, hread⟩ := Program.integers_mean
  obtain ⟨p, hp, hmodule⟩ := hread .hexadecimal "0x0_fF".toList 255 hspells
  obtain ⟨p', hp', hmodule'⟩ := hread .decimal "4294967296".toList 4294967296 hspells'
  change ofSource "0x0_fF;" = .ok p at hp
  change ofSource "4294967296;" = .ok p' at hp'
  rw [hp] at hmentions
  have hmem : Mention.int "0x0_fF" .hexadecimal ∈ p.mentions :=
    Option.some.inj hmentions ▸ List.mem_singleton_self _
  obtain ⟨n, hn, hcode, -⟩ := hmeans _ p hp _ _ hmem
  obtain rfl := (hn 255).1 hspells
  obtain ⟨md, hmd, -, hlines⟩ := (hmodule {}).1 (by decide)
  obtain ⟨r, hr, hlabel, hdetail⟩ := (hmodule' {}).2 (by decide)
  exact ⟨⟨p, md, hp, hmem, hspells, fun o span => (hcode o span).1 (by decide), hmd, hlines⟩,
    p', r, hp', hr, hlabel, hdetail⟩

end Chainlet
