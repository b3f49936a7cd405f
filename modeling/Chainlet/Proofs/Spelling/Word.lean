import Chainlet.Proofs.Grammar.Word
import Chainlet.Proofs.Spelling.Basic

/-!
# Proofs/Spelling/Word — a word with a blank behind it is read as a whole

Every lexeme `Takes` the words of its form: with a blank or nothing behind the word, it reads that
word, leaves the rest, and is not tempted by anything further on.
-/

namespace Chainlet

/-! ## Visible characters -/

/-- The characters that words start with are among the visible ones of ASCII. -/
def isVisible (c : Char) : Bool := 0x21 ≤ c.toNat && c.toNat ≤ 0x7E

/-- A visible character is no blank. -/
theorem isBlank_eq_false {c : Char} (h : isVisible c = true) : isBlank c = false := by
  rw [isVisible, Bool.and_eq_true, decide_eq_true_eq, decide_eq_true_eq] at h
  simp [isBlank, blankRanges]
  omega

/-- Digits are visible. -/
theorem isVisible_of_isDigit {c : Char} (h : c.isDigit = true) : isVisible c = true := by
  simp only [Char.isDigit, Bool.and_eq_true, decide_eq_true_eq, UInt32.le_iff_toNat_le] at h
  have hlow : 48 ≤ c.toNat := h.1
  have hhigh : c.toNat ≤ 57 := h.2
  simp only [isVisible, Bool.and_eq_true, decide_eq_true_eq]
  omega

/-- The letters by their numbers. -/
theorem isAlpha_iff {c : Char} :
    c.isAlpha = true ↔ 65 ≤ c.toNat ∧ c.toNat ≤ 90 ∨ 97 ≤ c.toNat ∧ c.toNat ≤ 122 := by
  change (decide (c.val ≥ 'A'.val ∧ c.val ≤ 'Z'.val) ||
    decide (c.val ≥ 'a'.val) && decide (c.val ≤ 'z'.val)) = true ↔ _
  rw [Bool.or_eq_true, Bool.and_eq_true, decide_eq_true_eq, decide_eq_true_eq, decide_eq_true_eq]
  rfl

/-- Letters are visible. -/
theorem isVisible_of_isAlpha {c : Char} (h : c.isAlpha = true) : isVisible c = true := by
  have hrange := isAlpha_iff.1 h
  simp only [isVisible, Bool.and_eq_true, decide_eq_true_eq]
  omega

/-- What starts a name is visible. -/
theorem isVisible_of_isNameStart {c : Char} (h : isNameStart c = true) : isVisible c = true := by
  rw [isNameStart, Bool.or_eq_true, beq_iff_eq] at h
  obtain h | rfl := h
  · exact isVisible_of_isAlpha h
  · rfl

/-- No name starts with a digit. -/
theorem isNameStart_of_isDigit {c : Char} (h : c.isDigit = true) : isNameStart c = false := by
  simp only [Char.isDigit, Bool.and_eq_true, decide_eq_true_eq, UInt32.le_iff_toNat_le] at h
  have hhigh : c.toNat ≤ 57 := h.2
  rw [isNameStart, Bool.or_eq_false_iff, beq_eq_false_iff_ne]
  refine ⟨Bool.eq_false_iff.2 fun halpha => ?_, ?_⟩
  · have hrange := isAlpha_iff.1 halpha
    omega
  · rintro rfl
    exact absurd hhigh (by decide)

/-- What stands in a name is visible. -/
theorem isVisible_of_isNameChar {c : Char} (h : isNameChar c = true) : isVisible c = true := by
  rw [isNameChar, Char.isAlphanum, Bool.or_eq_true, Bool.or_eq_true, beq_iff_eq] at h
  obtain (h | h) | rfl := h
  · exact isVisible_of_isAlpha h
  · exact isVisible_of_isDigit h
  · rfl

/-- What makes up an operator is visible. -/
theorem isVisible_of_isOperatorChar {c : Char} (h : isOperatorChar c = true) :
    isVisible c = true := by
  have hall : operatorChars.toList.all isVisible = true := by decide
  exact List.all_eq_true.1 hall c (List.contains_iff_mem.1 h)

/-- A hexadecimal digit may stand in a name. -/
theorem isNameChar_of_isHexDigit {c : Char} (h : isHexDigit c = true) : isNameChar c = true := by
  simp only [isHexDigit, Bool.or_eq_true, Bool.and_eq_true, decide_eq_true_eq, Char.le_def,
    UInt32.le_iff_toNat_le] at h
  have hrange : (c.isDigit = true ∨ 97 ≤ c.toNat ∧ c.toNat ≤ 102) ∨
    65 ≤ c.toNat ∧ c.toNat ≤ 70 := h
  rw [isNameChar, Char.isAlphanum, Bool.or_eq_true, Bool.or_eq_true, isAlpha_iff]
  obtain (hdigit | hlower) | hupper := hrange
  · exact .inl (.inr hdigit)
  · exact .inl (.inl (.inr ⟨hlower.1, by omega⟩))
  · exact .inl (.inl (.inl ⟨hupper.1, by omega⟩))

theorem isVisible_of_isHexDigit {c : Char} (h : isHexDigit c = true) : isVisible c = true :=
  isVisible_of_isNameChar (isNameChar_of_isHexDigit h)

theorem isVisible_of_isBinaryDigit {c : Char} (h : isBinaryDigit c = true) :
    isVisible c = true := by
  rw [isBinaryDigit, Bool.or_eq_true, beq_iff_eq, beq_iff_eq] at h
  obtain rfl | rfl := h <;> rfl

theorem isVisible_of_isOctalDigit {c : Char} (h : isOctalDigit c = true) : isVisible c = true := by
  simp only [isOctalDigit, Bool.and_eq_true, decide_eq_true_eq, Char.le_def,
    UInt32.le_iff_toNat_le] at h
  have hrange : 48 ≤ c.toNat ∧ c.toNat ≤ 55 := h
  simp only [isVisible, Bool.and_eq_true, decide_eq_true_eq]
  omega

/-! ## Ends of words -/

/-- What may stand behind a word: nothing, or a blank. -/
def EndsWord (tail : List Char) : Prop := tail.head?.all isBlank = true

/-- At the end of a word no visible character follows, so none of a class of them. -/
theorem EndsWord.not_any {tail : List Char} (h : EndsWord tail) {p : Char → Bool}
    (hp : ∀ c, p c = true → isVisible c = true) : tail.head?.any p = false := by
  cases tail with
  | nil => rfl
  | cons c cs =>
    have hc : isBlank c = true := h
    change p c = false
    cases hpc : p c with
    | false => rfl
    | true => rw [isBlank_eq_false (hp c hpc)] at hc; cases hc

/-- A run that nothing goes on with is taken whole. -/
theorem takeWhile_append_of_all {p : Char → Bool} {run tail : List Char} (hrun : run.all p = true)
    (htail : tail.head?.any p = false) : (run ++ tail).takeWhile p = run := by
  rw [List.takeWhile_append_of_pos (List.all_eq_true.1 hrun)]
  cases tail with
  | nil => exact List.append_nil run
  | cons c cs =>
    have hc : p c = false := htail
    rw [List.takeWhile_cons_of_neg (by simp [hc]), List.append_nil]

/-- Behind a run that nothing goes on with, the rest is left. -/
theorem dropWhile_append_of_all {p : Char → Bool} {run tail : List Char} (hrun : run.all p = true)
    (htail : tail.head?.any p = false) : (run ++ tail).dropWhile p = tail := by
  rw [List.dropWhile_append_of_pos (List.all_eq_true.1 hrun)]
  cases tail with
  | nil => rfl
  | cons c cs =>
    have hc : p c = false := htail
    rw [List.dropWhile_cons_of_neg (by simp [hc])]

namespace Lexeme

variable {a b l : Lexeme} {word tail : List Char}

/-- A lexeme that reads a word whenever that ends there. -/
def Takes (l : Lexeme) (word : List Char) : Prop :=
  ∀ ⦃tail : List Char⦄, EndsWord tail → l (word ++ tail) = some (word, tail)

/-- A fixed text is read whatever comes behind it. -/
theorem exactly_append (fixed tail : List Char) :
    exactly fixed (fixed ++ tail) = some (fixed, tail) :=
  exactly_eq_some.2 ⟨rfl, rfl⟩

/-- A fixed text is read before anything. -/
theorem exactly_takes (fixed : List Char) : Takes (exactly fixed) fixed :=
  fun tail _ => exactly_append fixed tail

/-- A run is read up to where no character goes on with it. -/
theorem many_append {p : Char → Bool} (h : word.all p = true)
    (hstop : tail.head?.any p = false) : many p (word ++ tail) = some (word, tail) := by
  rw [many, takeWhile_append_of_all h hstop, dropWhile_append_of_all h hstop]

/-- A run with its first character is read up to where no character goes on with it. -/
theorem run_append {first next : Char → Bool} {c : Char} {cs : List Char} (hc : first c = true)
    (hcs : cs.all next = true) (hstop : tail.head?.any next = false) :
    run first next (c :: cs ++ tail) = some (c :: cs, tail) :=
  run_eq_some.2 ⟨c, cs ++ tail, rfl, hc, by rw [takeWhile_append_of_all hcs hstop],
    (dropWhile_append_of_all hcs hstop).symm⟩

/-- A run of visible characters is read up to the end of the word. -/
theorem run_takes {first next : Char → Bool} {c : Char} {cs : List Char} (hc : first c = true)
    (hcs : cs.all next = true) (hnext : ∀ c, next c = true → isVisible c = true) :
    Takes (run first next) (c :: cs) := fun _ htail => run_append hc hcs (htail.not_any hnext)

/-- A word that must not run on is read where it ends. -/
theorem unglued_takes (h : Takes l word) : Takes (unglued l) word :=
  fun _ htail => unglued_eq_some.2 ⟨h htail, htail.not_any fun _ => isVisible_of_isNameChar⟩

/-- A fixed text in front of a word. -/
theorem glue_exactly_takes {fixed : List Char} (h : Takes l word) :
    Takes (glue (exactly fixed) l) (fixed ++ word) := by
  intro tail htail
  rw [List.append_assoc]
  exact glue_eq_some.2 ⟨fixed, word ++ tail, word, exactly_append .., h htail, rfl⟩

/-- A name is read up to where no character goes on with it. -/
theorem name_append (h : Form.name word = true) (hstop : tail.head?.any isNameChar = false) :
    name (word ++ tail) = some (word, tail) := by
  cases word with
  | nil => cases h
  | cons c cs =>
    rw [Form.name, Bool.and_eq_true] at h
    exact run_append h.1 h.2 hstop

theorem name_takes (h : Form.name word = true) : Takes name word :=
  fun _ htail => name_append h (htail.not_any fun _ => isVisible_of_isNameChar)

/-- A keyword is read up to its end. -/
theorem keyword_takes (h : Form.keyword word = true) : Takes keyword word := by
  unfold Form.keyword at h
  split at h
  · exact glue_exactly_takes (name_takes h)
  · cases h

/-- An operator is read up to its end, and is no equals sign. -/
theorem operator_takes (h : Form.operator word = true) : Takes operator word := by
  rw [Form.operator, Bool.and_eq_true, Bool.and_eq_true] at h
  obtain ⟨hne, hword, hall⟩ := h
  cases word with
  | nil => cases hne
  | cons c cs =>
    rw [List.all_cons, Bool.and_eq_true] at hall
    intro tail htail
    exact checked_eq_some.2
      ⟨run_takes hall.1 hall.2 (fun _ => isVisible_of_isOperatorChar) htail, hword⟩

/-- An equals sign is read if no operator goes on with it. -/
theorem equals_takes : Takes equals ['='] := fun tail htail =>
  checked_eq_some.2 ⟨exactly_append .., by
    rw [htail.not_any fun _ => isVisible_of_isOperatorChar]; rfl⟩

/-! ## Literals -/

/-- Digits are read up to where neither a digit nor an underscore follows. -/
theorem digits_append {isDigit : Char → Bool} (h : Form.digits isDigit word = true)
    (hstop : (tail.head?.any fun c => isDigit c || c == '_') = false) :
    run isDigit (fun c => isDigit c || c == '_') (word ++ tail) = some (word, tail) := by
  cases word with
  | nil => cases h
  | cons c cs =>
    rw [Form.digits, Bool.and_eq_true] at h
    exact run_append h.1 h.2 hstop

theorem digits_takes {isDigit : Char → Bool} (hdigit : ∀ c, isDigit c = true → isVisible c = true)
    (h : Form.digits isDigit word = true) :
    Takes (run isDigit fun c => isDigit c || c == '_') word := by
  refine fun tail htail => digits_append h (htail.not_any fun c hc => ?_)
  rw [Bool.or_eq_true, beq_iff_eq] at hc
  obtain hc | rfl := hc
  · exact hdigit c hc
  · rfl

theorem decimal_takes (h : Form.digits Char.isDigit word = true) : Takes decimal word :=
  unglued_takes (digits_takes (fun _ => isVisible_of_isDigit) h)

/-- A float is read as its digits around the point. -/
theorem float_takes {whole fraction : List Char} (hwhole : Form.digits Char.isDigit whole = true)
    (hfraction : Form.digits Char.isDigit fraction = true) :
    Takes float (whole ++ '.' :: fraction) := by
  refine unglued_takes fun tail htail => ?_
  rw [List.append_assoc]
  have hpoint : glue (exactly ['.']) digits ('.' :: fraction ++ tail)
      = some ('.' :: fraction, tail) :=
    glue_exactly_takes (digits_takes (fun _ => isVisible_of_isDigit) hfraction) htail
  exact glue_eq_some.2 ⟨whole, '.' :: fraction ++ tail, '.' :: fraction,
    digits_append hwhole rfl, hpoint, rfl⟩

/-- A number with a prefix is read up to its end. -/
theorem based_takes {mark : List Char} {isDigit : Char → Bool}
    (hdigit : ∀ c, isDigit c = true → isVisible c = true)
    (h : Form.based mark isDigit word = true) : Takes (based mark isDigit) word := by
  rw [Form.based, Bool.and_eq_true] at h
  obtain ⟨digits, rfl⟩ := List.isPrefixOf_iff_prefix.1 h.1
  rw [List.drop_left] at h
  exact unglued_takes (glue_exactly_takes (digits_takes hdigit h.2))

/-- The rest of a string is read up to its closing quote, before anything. -/
theorem closingQuote_append (h : Form.closed word = true) (tail : List Char) :
    closingQuote (word ++ tail) = some (word, tail) := by
  fun_induction Form.closed word with
  | case1 => cases h
  | case2 c cs ih =>
    rw [List.cons_append, List.cons_append, closingQuote, ih h]
    rfl
  | case3 cs hback =>
    rw [List.isEmpty_iff.1 h]
    rfl
  | case4 c cs hback hc ih =>
    have hne : c ≠ '\\' := by
      rintro rfl
      cases cs with
      | nil => cases h
      | cons d ds => exact hback d ds rfl rfl
    rw [List.cons_append, closingQuote, ih h]
    · rfl
    · exact hc
    · intro d ds hcons
      exact absurd hcons hne

/-- A string is read up to its closing quote. -/
theorem string_takes (h : Form.string word = true) : Takes string word := by
  unfold Form.string at h
  split at h
  · next cs =>
    exact glue_exactly_takes fun tail _ => closingQuote_append h tail
  · cases h

theorem boolean_takes (h : Form.boolean word = true) : Takes boolean word := by
  refine unglued_takes fun tail htail => ?_
  rw [Form.boolean, Bool.or_eq_true, beq_iff_eq, beq_iff_eq] at h
  obtain rfl | rfl := h
  · rw [either, exactly_append]
    rfl
  · have hfail : exactly "@true".toList ("@false".toList ++ tail) = none := rfl
    rw [either, hfail, exactly_append]
    rfl

end Lexeme

end Chainlet
