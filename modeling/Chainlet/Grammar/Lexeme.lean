import Chainlet.Text.Blank

/-!
# Grammar/Lexeme — the words of the language

A `Lexeme` reads one word off the front of a text and leaves the rest. Words are made of fixed texts
(`Lexeme.exactly`), runs of a class of characters (`Lexeme.run`), and words glued together
(`Lexeme.glue`). **Every lexeme splits its text**: `Lexeme.Splits` says that the word and the rest
are the text again, and each way of making lexemes keeps it.
-/

namespace Chainlet

/-! ## Classes of characters -/

/-- A character that may start a name. -/
def isNameStart (c : Char) : Bool := c.isAlpha || c == '_'

/-- A character that may stand inside a name. -/
def isNameChar (c : Char) : Bool := c.isAlphanum || c == '_'

/-- The characters that make up operators. -/
def operatorChars : String := "+-*/%<>=!|^~?&"

/-- Whether a character may stand in an operator. -/
def isOperatorChar (c : Char) : Bool := operatorChars.toList.contains c

/-- The digits of hexadecimal numbers, in either case. -/
def isHexDigit (c : Char) : Bool :=
  c.isDigit || ('a' ≤ c && c ≤ 'f') || ('A' ≤ c && c ≤ 'F')

/-- The digits of binary numbers. -/
def isBinaryDigit (c : Char) : Bool := c == '0' || c == '1'

/-- The digits of octal numbers. -/
def isOctalDigit (c : Char) : Bool := '0' ≤ c && c ≤ '7'

/-! ## Words and how they are made -/

/-- A reader of one word: the word and the rest of the text. -/
abbrev Lexeme := List Char → Option (List Char × List Char)

namespace Lexeme

/-- **What a lexeme reads and what it leaves are the text again.** -/
def Splits (l : Lexeme) : Prop :=
  ∀ text word rest : List Char, l text = some (word, rest) → text = word ++ rest

/-- One fixed text. -/
def exactly : List Char → Lexeme
  | [], text => some ([], text)
  | _ :: _, [] => none
  | c :: cs, d :: text =>
    if c = d then (exactly cs text).map fun (word, rest) => (d :: word, rest) else none

/-- A fixed text is cut off the front. -/
theorem exactly_splits (fixed : List Char) : Splits (exactly fixed) := by
  intro text word rest h
  induction fixed generalizing text word with
  | nil => simp_all [exactly]
  | cons c cs ih =>
    cases text with
    | nil => simp [exactly] at h
    | cons d text =>
      simp only [exactly] at h
      split at h
      · obtain ⟨⟨tail, left⟩, htail, heq⟩ := Option.map_eq_some_iff.1 h
        simp only [Prod.mk.injEq] at heq
        obtain ⟨rfl, rfl⟩ := heq
        simp [ih _ _ htail]
      · simp at h

/-- The longest run of a class of characters, which may be empty. -/
def many (p : Char → Bool) : Lexeme := fun text => some (text.takeWhile p, text.dropWhile p)

/-- A run that may be empty is cut off the front. -/
theorem many_splits (p : Char → Bool) : Splits (many p) := by
  intro text word rest h
  simp only [many, Option.some.injEq, Prod.mk.injEq] at h
  obtain ⟨rfl, rfl⟩ := h
  exact List.takeWhile_append_dropWhile.symm

/-- A character of one class and the longest run of another class after it. -/
def run (first next : Char → Bool) : Lexeme
  | [] => none
  | c :: text => if first c then some (c :: text.takeWhile next, text.dropWhile next) else none

/-- A run is cut off the front. -/
theorem run_splits (first next : Char → Bool) : Splits (run first next) := by
  intro text word rest h
  cases text with
  | nil => simp [run] at h
  | cons c text =>
    simp only [run] at h
    split at h
    · simp only [Option.some.injEq, Prod.mk.injEq] at h
      obtain ⟨rfl, rfl⟩ := h
      simp [List.takeWhile_append_dropWhile]
    · simp at h

/-- One word and another glued to it, as a single word. -/
def glue (a b : Lexeme) : Lexeme := fun text => do
  let (word, middle) ← a text
  let (tail, rest) ← b middle
  pure (word ++ tail, rest)

/-- Two words side by side are cut off one after the other. -/
theorem glue_splits {a b : Lexeme} (ha : Splits a) (hb : Splits b) : Splits (glue a b) := by
  intro text word rest h
  simp only [glue, Option.bind_eq_bind, Option.bind_eq_some_iff, Option.pure_def,
    Option.some.injEq, Prod.mk.injEq, Prod.exists] at h
  obtain ⟨head, middle, hhead, tail, left, htail, rfl, rfl⟩ := h
  rw [ha _ _ _ hhead, hb _ _ _ htail, List.append_assoc]

/-- A word of one kind, or else of another. -/
def either (a b : Lexeme) : Lexeme := fun text => a text <|> b text

/-- Whichever word is read, it is cut off the front. -/
theorem either_splits {a b : Lexeme} (ha : Splits a) (hb : Splits b) : Splits (either a b) := by
  intro text word rest h
  simp only [either] at h
  cases hr : a text with
  | none => exact hb _ _ _ (by simpa [hr] using h)
  | some r => exact ha _ _ _ (by simpa [hr] using h)

/-- A word such that the word and the text after it pass a test. -/
def checked (l : Lexeme) (test : List Char → List Char → Bool) : Lexeme := fun text =>
  (l text).filter fun (word, rest) => test word rest

/-- A check changes nothing about what is cut off. -/
theorem checked_splits {l : Lexeme} (h : Splits l) (test : List Char → List Char → Bool) :
    Splits (checked l test) := by
  intro text word rest hr
  simp only [checked, Option.filter_eq_some_iff] at hr
  exact h _ _ _ hr.1

/-- A word that no name is glued to. -/
def unglued (l : Lexeme) : Lexeme := checked l fun _ rest => !rest.head?.any isNameChar

theorem unglued_splits {l : Lexeme} (h : Splits l) : Splits (unglued l) := checked_splits h _

/-! ## The words -/

/-- A name: a letter or an underscore, then letters, digits and underscores. -/
def name : Lexeme := run isNameStart isNameChar

/-- A keyword: an at sign and a name. -/
def keyword : Lexeme := glue (exactly ['@']) name

/-- An operator: a run of operator characters that is not a single equals sign. -/
def operator : Lexeme := checked (run isOperatorChar isOperatorChar) fun word _ => word != ['=']

/-- The equals sign of an assignment, which no operator character follows. -/
def equals : Lexeme := checked (exactly ['=']) fun _ rest => !rest.head?.any isOperatorChar

/-- A comment: two number signs and the rest of the line. -/
def docComment : Lexeme := glue (exactly ['#', '#']) (many (· != '\n'))

/-- The rest of a string and its closing quote; a backslash takes the next character along. -/
def closingQuote : Lexeme
  | [] => none
  | '"' :: text => some (['"'], text)
  | '\\' :: c :: text => (closingQuote text).map fun (word, rest) => ('\\' :: c :: word, rest)
  | c :: text => (closingQuote text).map fun (word, rest) => (c :: word, rest)

/-- The rest of a string is cut off the front, escapes included. -/
theorem closingQuote_splits : Splits closingQuote := by
  intro text word rest h
  fun_induction closingQuote text generalizing word with
  | case1 => simp at h
  | case2 text =>
    simp only [Option.some.injEq, Prod.mk.injEq] at h
    obtain ⟨rfl, rfl⟩ := h
    rfl
  | case3 c text ih =>
    obtain ⟨⟨tail, left⟩, htail, heq⟩ := Option.map_eq_some_iff.1 h
    simp only [Prod.mk.injEq] at heq
    obtain ⟨rfl, rfl⟩ := heq
    simp [ih _ htail]
  | case4 c text _ _ ih =>
    obtain ⟨⟨tail, left⟩, htail, heq⟩ := Option.map_eq_some_iff.1 h
    simp only [Prod.mk.injEq] at heq
    obtain ⟨rfl, rfl⟩ := heq
    simp [ih _ htail]

/-- A string between quotes. -/
def string : Lexeme := glue (exactly ['"']) closingQuote

/-- Decimal digits with underscores among or after them. -/
def digits : Lexeme := run Char.isDigit fun c => c.isDigit || c == '_'

/-- A decimal number: digits that no name runs on from. -/
def decimal : Lexeme := unglued digits

/-- A float: digits on both sides of a point. -/
def float : Lexeme := unglued (glue digits (glue (exactly ['.']) digits))

/-- The two characters of a base and then its digits, with underscores among or after them. -/
def based (mark : List Char) (isDigit : Char → Bool) : Lexeme :=
  unglued (glue (exactly mark) (run isDigit fun c => isDigit c || c == '_'))

/-- A hexadecimal number. -/
def hex : Lexeme := based ['0', 'x'] isHexDigit

/-- A binary number. -/
def binary : Lexeme := based ['0', 'b'] isBinaryDigit

/-- An octal number. -/
def octal : Lexeme := based ['0', 'c'] isOctalDigit

/-- A truth value, which is a whole word. -/
def boolean : Lexeme := unglued (either (exactly "@true".toList) (exactly "@false".toList))

theorem name_splits : Splits name := run_splits _ _

theorem keyword_splits : Splits keyword := glue_splits (exactly_splits _) name_splits

theorem operator_splits : Splits operator := checked_splits (run_splits _ _) _

theorem docComment_splits : Splits docComment := glue_splits (exactly_splits _) (many_splits _)

theorem string_splits : Splits string := glue_splits (exactly_splits _) closingQuote_splits

theorem digits_splits : Splits digits := run_splits _ _

theorem decimal_splits : Splits decimal := unglued_splits digits_splits

theorem float_splits : Splits float :=
  unglued_splits (glue_splits digits_splits (glue_splits (exactly_splits _) digits_splits))

theorem based_splits (mark : List Char) (isDigit : Char → Bool) : Splits (based mark isDigit) :=
  unglued_splits (glue_splits (exactly_splits _) (run_splits _ _))

theorem hex_splits : Splits hex := based_splits _ _

theorem binary_splits : Splits binary := based_splits _ _

theorem octal_splits : Splits octal := based_splits _ _

theorem boolean_splits : Splits boolean :=
  unglued_splits (either_splits (exactly_splits _) (exactly_splits _))

end Lexeme

end Chainlet
