import Chainlet.Proofs.Grammar.Sound

/-!
# Proofs/Parallel/Fence — where an item ends at the latest

`fenced mode d text` scans a text with `d` brackets open for its fence: the first semicolon outside
all brackets, or the first closing bracket that has no opening one.  Strings are skipped.  No part of
an item reaches over its fence, and **what is read inside an item leaves its fence where it is**
(`Derives.quiet`); so behind an item and in front of its semicolon there is a fence all along.
-/

namespace Chainlet

/-! ## Fences -/

def opensBracket (c : Char) : Bool := c == '(' || (c == '[' || c == '{')

def closesBracket (c : Char) : Bool := c == ')' || (c == ']' || c == '}')

/-- The characters that may be a fence. -/
def isFence (c : Char) : Bool := c == ';' || closesBracket c

/-- The characters that a scan passes over outside of strings. -/
def isPlain (c : Char) : Bool := !(c == '"' || (opensBracket c || isFence c))

/-- What a scan is inside of. -/
inductive ScanMode where
  | text
  | string
  /-- Behind a backslash in a string. -/
  | escape
deriving DecidableEq, Repr

/-- Whether a text with some brackets open in front of it has a fence. -/
def fenced : ScanMode → (depth : Nat) → List Char → Bool
  | _, _, [] => false
  | .escape, d, _ :: cs => fenced .string d cs
  | .string, d, c :: cs =>
    fenced (if c = '"' then .text else if c = '\\' then .escape else .string) d cs
  | .text, d, c :: cs =>
    if c = '"' then fenced .string d cs
    else if opensBracket c then fenced .text (d + 1) cs
    else if closesBracket c then d == 0 || fenced .text (d - 1) cs
    else if c = ';' && d == 0 then true
    else fenced .text d cs

variable {w x : List Char} {d : Nat}

theorem fenced_plain (h : w.all isPlain = true) : fenced .text d (w ++ x) = fenced .text d x := by
  induction w with
  | nil => rfl
  | cons c cs ih =>
    rw [List.all_cons, Bool.and_eq_true] at h
    obtain ⟨hc, hcs⟩ := h
    simp only [isPlain, isFence, Bool.not_eq_true', Bool.or_eq_false_iff,
      beq_eq_false_iff_ne] at hc
    obtain ⟨hquote, hopens, hsemicolon, hcloses⟩ := hc
    rw [List.cons_append, fenced, if_neg hquote, hopens, hcloses]
    simp [hsemicolon, ih hcs]

/-- The rest of a string ends in front of the text behind it. -/
theorem fenced_closed (h : Form.closed w = true) : fenced .string d (w ++ x) = fenced .text d x := by
  fun_induction Form.closed w with
  | case1 => cases h
  | case2 c cs ih =>
    rw [List.cons_append, List.cons_append, fenced]
    exact ih h
  | case3 cs hback =>
    rw [List.isEmpty_iff.1 h]
    rfl
  | case4 c cs hback hc ih =>
    have hne : c ≠ '\\' := by
      rintro rfl
      cases cs with
      | nil => cases h
      | cons d ds => exact hback d ds rfl rfl
    rw [List.cons_append, fenced, if_neg hc, if_neg hne]
    exact ih h

/-- Where there is a fence, there is a character that is one. -/
theorem any_isFence {mode : ScanMode} (h : fenced mode d x = true) : x.any isFence = true := by
  fun_induction fenced mode d x with
  | case1 => cases h
  | case2 d c cs ih => rw [List.any_cons, ih h, Bool.or_true]
  | case3 d c cs ih => rw [List.any_cons, ih h, Bool.or_true]
  | case4 d cs ih => rw [List.any_cons, ih h, Bool.or_true]
  | case5 d c cs hquote hopens ih => rw [List.any_cons, ih h, Bool.or_true]
  | case6 d c cs hquote hopens hcloses ih => rw [List.any_cons, isFence, hcloses]; simp
  | case7 d c cs hquote hopens hcloses hend =>
    rw [Bool.and_eq_true, decide_eq_true_eq] at hend
    rw [List.any_cons, hend.1]
    rfl
  | case8 d c cs hquote hopens hcloses hend ih => rw [List.any_cons, ih h, Bool.or_true]

/-- A string that starts in front of a fence is closed. -/
theorem closingQuote_of_fenced {z : List Char} (h : fenced .string d x = true) :
    ∃ word rest, Lexeme.closingQuote x = some (word, rest) ∧
      Lexeme.closingQuote (x ++ z) = some (word, rest ++ z) := by
  fun_induction Lexeme.closingQuote x with
  | case1 => cases h
  | case2 text => exact ⟨['"'], text, rfl, rfl⟩
  | case3 c text ih =>
    obtain ⟨word, rest, hread, hread'⟩ := ih h
    refine ⟨'\\' :: c :: word, rest, by rw [hread]; rfl, ?_⟩
    rw [List.cons_append, List.cons_append, Lexeme.closingQuote, hread']
    rfl
  | case4 c text hquote hback ih =>
    have hne : c ≠ '\\' := by
      rintro rfl
      cases text with
      | nil => cases h
      | cons d ds => exact hback d ds rfl rfl
    rw [fenced, if_neg hquote, if_neg hne] at h
    obtain ⟨word, rest, hread, hread'⟩ := ih h
    refine ⟨c :: word, rest, by rw [hread]; rfl, ?_⟩
    rw [List.cons_append, Lexeme.closingQuote, hread']
    · rfl
    · exact hquote
    · intro d ds hcons
      exact absurd hcons hne

/-! ## Words that leave a fence where it is -/

/-- A text in front of which a fence is the same as behind it. -/
def Quiet (w : List Char) : Prop := ∀ d x, fenced .text d (w ++ x) = fenced .text d x

theorem quiet_of_plain (h : w.all isPlain = true) : Quiet w := fun _ _ => fenced_plain h

/-- The characters that are not plain. -/
theorem not_isPlain {c : Char} (h : isPlain c = false) :
    c ∈ ['"', '(', '[', '{', ';', ')', ']', '}'] := by
  simp only [isPlain, opensBracket, isFence, closesBracket, Bool.not_eq_false', Bool.or_eq_true,
    beq_iff_eq] at h
  simpa only [List.mem_cons, List.not_mem_nil, or_false, or_assoc] using h

/-- A class of characters with none in it that is not plain. -/
theorem isPlain_of {p : Char → Bool}
    (h : ['"', '(', '[', '{', ';', ')', ']', '}'].any p = false) {c : Char} (hc : p c = true) :
    isPlain c = true := by
  cases hplain : isPlain c with
  | true => rfl
  | false => exact absurd hc (List.any_eq_false.1 h c (not_isPlain hplain))

theorem all_isPlain_of {p : Char → Bool}
    (h : ['"', '(', '[', '{', ';', ')', ']', '}'].any p = false) (hw : w.all p = true) :
    w.all isPlain = true :=
  List.all_eq_true.2 fun c hc => isPlain_of h (List.all_eq_true.1 hw c hc)

/-- A class with none of some characters in it, and a class of one more character. -/
theorem any_or_eq_false {p q : Char → Bool} {l : List Char} (hp : l.any p = false)
    (hq : l.any q = false) : (l.any fun c => p c || q c) = false := by
  rw [List.any_eq_false] at hp hq ⊢
  intro c hc
  rw [Bool.or_eq_true, not_or]
  exact ⟨hp c hc, hq c hc⟩

theorem Form.digits_plain {isDigit : Char → Bool}
    (h : ['"', '(', '[', '{', ';', ')', ']', '}'].any isDigit = false)
    (hw : Form.digits isDigit w = true) : w.all isPlain = true := by
  cases w with
  | nil => cases hw
  | cons c cs =>
    rw [digits, Bool.and_eq_true] at hw
    refine all_isPlain_of (any_or_eq_false h (q := (· == '_')) (by decide)) ?_
    rw [List.all_cons, hw.1, hw.2]
    rfl

theorem Form.name_plain (hw : Form.name w = true) : w.all isPlain = true := by
  cases w with
  | nil => cases hw
  | cons c cs =>
    rw [name, Bool.and_eq_true] at hw
    rw [List.all_cons, isPlain_of (by decide) hw.1, all_isPlain_of (by decide) hw.2]
    rfl

theorem Form.based_plain {mark : List Char} {isDigit : Char → Bool}
    (hmark : mark.all isPlain = true)
    (h : ['"', '(', '[', '{', ';', ')', ']', '}'].any isDigit = false)
    (hw : Form.based mark isDigit w = true) : w.all isPlain = true := by
  rw [based, Bool.and_eq_true] at hw
  obtain ⟨digits, rfl⟩ := List.isPrefixOf_iff_prefix.1 hw.1
  rw [List.drop_left] at hw
  rw [List.all_append, hmark, digits_plain h hw.2]
  rfl

/-- The words that are neither comments nor strings are plain. -/
theorem Rule.word_plain {r : Rule} {form : List Char → Bool} (hform : r.form? = some form)
    (hr : r ≠ .docComment) (hstring : r ≠ .stringLiteral) (hw : form w = true) :
    w.all isPlain = true := by
  cases r <;> cases hform
  case docComment => exact absurd rfl hr
  case stringLiteral => exact absurd rfl hstring
  case keyword =>
    unfold Form.keyword at hw
    split at hw
    · rw [List.all_cons, Form.name_plain hw]
      rfl
    · cases hw
  case operator =>
    rw [Form.operator, Bool.and_eq_true, Bool.and_eq_true] at hw
    exact all_isPlain_of (by decide) hw.2.2
  case name => exact Form.name_plain hw
  case decimalLiteral => exact Form.digits_plain (by decide) hw
  case binaryLiteral => exact Form.based_plain (by decide) (by decide) hw
  case hexLiteral => exact Form.based_plain (by decide) (by decide) hw
  case octalLiteral => exact Form.based_plain (by decide) (by decide) hw
  case floatLiteral =>
    obtain ⟨whole, fraction, hwhole, hfraction, rfl⟩ := Form.float_eq hw
    rw [List.all_append, List.all_cons, Form.digits_plain (by decide) hwhole,
      Form.digits_plain (by decide) hfraction]
    rfl
  case booleanLiteral =>
    rw [Form.boolean, Bool.or_eq_true, beq_iff_eq, beq_iff_eq] at hw
    obtain rfl | rfl := hw <;> decide

/-- **A word inside an item leaves its fence where it is.** -/
theorem Rule.word_quiet {r : Rule} {form : List Char → Bool} (hform : r.form? = some form)
    (hr : r ≠ .docComment) (hw : form w = true) : Quiet w := by
  by_cases hstring : r = .stringLiteral
  · subst hstring
    cases hform
    unfold Form.string at hw
    split at hw
    · exact fun d x => fenced_closed hw
    · cases hw
  · exact quiet_of_plain (r.word_plain hform hr hstring hw)

theorem blanks_quiet (hw : w.all isBlank = true) : Quiet w :=
  quiet_of_plain (all_isPlain_of (by decide) hw)

/-! ## Nodes inside an item -/

/-- The rules of the nodes inside an item. -/
def Rule.isInner : Rule → Bool
  | .program | .itemElement | .docElement | .docComment => false
  | _ => true

/-- A node of such a rule.  A node for a part that may be missing may have no other part in it. -/
def Tree.isInner (t : Tree) : Bool :=
  match t.rule with
  | .optional => t.children.all fun u => u.rule.isInner && u.rule != .optional
  | r => r.isInner

def Slot.isInner : Slot → Bool
  | rule r => r.isInner && r != .optional
  | category k => k != .component && (k != .program && k != .element)
  | optional r => r.isInner && r != .optional

def Layout.isInner : Layout → Bool
  | leaf => true
  | fixed slots => slots.all Slot.isInner
  | many slot | some slot => slot.isInner
  | atMostOne => false

theorem Rule.layout_isInner {r : Rule} :
    r.isInner = true → r ≠ .optional → r.layout.isInner = true := by
  cases r <;> decide

theorem Tree.isInner_of_rule {t : Tree} (h : t.rule.isInner = true) (hne : t.rule ≠ .optional) :
    t.isInner = true := by
  unfold isInner
  split
  · next hrule => exact absurd hrule hne
  · exact h

theorem Slot.isInner_of_admits {slot : Slot} {t : Tree} (hslot : slot.isInner = true)
    (h : slot.admits t = true) : t.isInner = true := by
  cases slot with
  | rule r =>
    obtain rfl : t.rule = r := beq_iff_eq.1 h
    rw [isInner, Bool.and_eq_true, bne_iff_ne] at hslot
    exact Tree.isInner_of_rule hslot.1 hslot.2
  | category k =>
    obtain rfl : t.rule.category = k := beq_iff_eq.1 h
    refine Tree.isInner_of_rule ?_ ?_
    · revert hslot
      cases t.rule <;> decide
    · intro hrule
      rw [hrule] at hslot
      cases hslot
  | optional r =>
    rw [admits, Bool.and_eq_true, beq_iff_eq] at h
    rw [Tree.isInner, h.1]
    refine List.all_eq_true.2 fun u hu => ?_
    rw [beq_iff_eq.1 (List.all_eq_true.1 h.2 u hu)]
    exact hslot

theorem Slot.isInner_of_admitsEach {slots : List Slot} {ts : List Tree}
    (hslots : slots.all Slot.isInner = true) (h : admitsEach slots ts = true) :
    ∀ t ∈ ts, t.isInner = true := by
  induction slots generalizing ts with
  | nil =>
    obtain rfl := admitsEach_nil_iff.1 h
    exact fun _ hmem => absurd hmem List.not_mem_nil
  | cons s ss ih =>
    obtain ⟨t, us, rfl, hslot, hrest⟩ := admitsEach_cons_iff.1 h
    rw [List.all_cons, Bool.and_eq_true] at hslots
    exact List.forall_mem_cons.2 ⟨isInner_of_admits hslots.1 hslot, ih hslots.2 hrest⟩

/-- The children of a node inside an item are inside it too. -/
theorem Tree.children_isInner {rule : Rule} {text : String} {start : Option Nat} {ts : List Tree}
    (h : (Tree.node rule text start ts).isInner = true) (hlayout : rule.layout.admits ts = true) :
    ∀ t ∈ ts, t.isInner = true := by
  by_cases hoptional : rule = .optional
  · subst hoptional
    intro u hu
    have hinner := List.all_eq_true.1 (show ts.all _ = true from h) u hu
    rw [Bool.and_eq_true, bne_iff_ne] at hinner
    exact isInner_of_rule hinner.1 hinner.2
  · have hrule : rule.isInner = true := by
      unfold isInner at h
      split at h
      · next heq => exact absurd heq hoptional
      · exact h
    have hslots := rule.layout_isInner hrule hoptional
    cases hl : rule.layout with
    | leaf =>
      rw [hl] at hlayout
      rw [List.isEmpty_iff.1 hlayout]
      exact fun _ hmem => absurd hmem List.not_mem_nil
    | fixed slots =>
      rw [hl] at hlayout hslots
      exact Slot.isInner_of_admitsEach hslots hlayout
    | many slot =>
      rw [hl] at hlayout hslots
      exact fun t ht => Slot.isInner_of_admits hslots (List.all_eq_true.1 hlayout t ht)
    | some slot =>
      rw [hl] at hlayout hslots
      exact fun t ht => Slot.isInner_of_admits hslots
        (List.all_eq_true.1 ((Bool.and_eq_true ..).mp hlayout).2 t ht)
    | atMostOne =>
      rw [hl] at hslots
      cases hslots

/-! ## Nodes leave a fence where it is -/

/-- The number of brackets of its own that are open around the children of a node: semicolons stand
between the items of a block, and nowhere else inside an item. -/
def Rule.inside : Rule → Nat
  | .block => 1
  | _ => 0

theorem Rule.separator_quiet {r : Rule} (hr : r.isInner = true) (hw : w ∈ r.separators) :
    fenced .text (d + r.inside) (w ++ x) = fenced .text (d + r.inside) x := by
  have hplain : r.isInner = true → ∀ w ∈ r.separators,
      w = [';'] ∧ r = .block ∨ w.all isPlain = true := by
    cases r <;> decide
  obtain ⟨rfl, rfl⟩ | hplain := hplain hr w hw
  · rfl
  · exact fenced_plain hplain

theorem Rule.brackets_quiet {r : Rule} {opening closing : List Char}
    (h : r.brackets? = some (opening, closing)) :
    fenced .text d (opening ++ x) = fenced .text (d + 1) x ∧
      fenced .text (d + 1) (closing ++ x) = fenced .text d x := by
  cases r <;> cases h <;> exact ⟨rfl, rfl⟩

theorem Tree.rule_isInner {t : Tree} (h : t.isInner = true) : t.rule.isInner = true := by
  unfold isInner at h
  split at h
  · next hrule => rw [hrule]; rfl
  · exact h

mutual

/-- **What is read inside an item leaves its fence where it is.** -/
theorem Derives.quiet {c e : Cursor} {t : Tree} : Derives c t e → t.isInner = true →
    ∃ w, c.rest = w ++ e.rest ∧ Quiet w
  | @Derives.leaf rule form _ word rest hform hword htext, ht => by
    refine ⟨word, htext, rule.word_quiet hform ?_ hword⟩
    rintro rfl
    cases ht
  | @Derives.branch rule _ _ _ hform hbrackets hlayout hinside, ht => by
    obtain ⟨w, hw, hquiet⟩ := hinside.quiet (Tree.rule_isInner ht) (Tree.children_isInner ht hlayout)
    have hinside : rule.inside = 0 := by cases rule <;> first | rfl | cases hbrackets
    rw [hinside] at hquiet
    exact ⟨w, hw, hquiet⟩
  | @Derives.bracketed rule opening closing _ rest _ d _ hbrackets hlayout hopening hinside hclosing,
      ht => by
    obtain ⟨w, hw, hquiet⟩ := hinside.quiet (Tree.rule_isInner ht) (Tree.children_isInner ht hlayout)
    have hwithin : ∀ d x, fenced .text (d + 1) (w ++ x) = fenced .text (d + 1) x := by
      intro d x
      cases rule
      case block => exact hquiet d x
      all_goals exact hquiet (d + 1) x
    rw [hclosing] at hw
    refine ⟨opening ++ (w ++ closing), ?_, fun d x => ?_⟩
    · rw [hopening, List.append_assoc, List.append_assoc]
      exact congrArg (opening ++ ·) hw
    · rw [List.append_assoc, List.append_assoc, (rule.brackets_quiet hbrackets).1, hwithin,
        (rule.brackets_quiet hbrackets).2]

theorem Fills.quiet {rule : Rule} {c e : Cursor} {ts : List Tree} : Fills rule c ts e →
    rule.isInner = true → (∀ t ∈ ts, t.isInner = true) →
    ∃ w, c.rest = w ++ e.rest ∧ ∀ d x, fenced .text (d + rule.inside) (w ++ x)
      = fenced .text (d + rule.inside) x
  | .done, _, _ => ⟨[], rfl, fun _ _ => rfl⟩
  | @Fills.blank _ c _ _ h, hrule, hts => by
    obtain ⟨w, hw, hquiet⟩ := h.quiet hrule hts
    refine ⟨c.rest.takeWhile isBlank ++ w, ?_, fun d x => ?_⟩
    · rw [List.append_assoc, ← hw]
      exact List.takeWhile_append_dropWhile.symm
    · rw [List.append_assoc, blanks_quiet List.all_takeWhile, hquiet]
  | @Fills.sign _ _ _ word _ _ hword htext h, hrule, hts => by
    obtain ⟨w, hw, hquiet⟩ := h.quiet hrule hts
    refine ⟨word ++ w, ?_, fun d x => ?_⟩
    · rw [htext, List.append_assoc, ← hw]
      rfl
    · rw [List.append_assoc, rule.separator_quiet hrule hword, hquiet]
  | .child hchild h, hrule, hts => by
    obtain ⟨w, hw, hquiet⟩ := h.quiet hrule fun t ht => hts t (List.mem_cons_of_mem _ ht)
    obtain ⟨v, hv, hchildQuiet⟩ := hchild.quiet (hts _ List.mem_cons_self)
    refine ⟨v ++ w, by rw [hv, hw, List.append_assoc], fun d x => ?_⟩
    rw [List.append_assoc, hchildQuiet, hquiet]
  | .absent _ h, hrule, hts =>
    h.quiet hrule fun t ht => hts t (List.mem_cons_of_mem _ ht)

end

end Chainlet
