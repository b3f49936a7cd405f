import Chainlet.Proofs.Spelling.Names

/-!
# Proofs/Spelling/Literals — every literal that is a word is read as what it is

The alternatives for literals are tried in order, and each word gets past all those before its own:
most of them by its first character, and the numbers by the character behind their first digits.
-/

namespace Chainlet

/-! ## Ends of numbers -/

theorem isNameChar_of_isDigit {c : Char} (h : c.isDigit = true) : isNameChar c = true := by
  rw [isNameChar, Char.isAlphanum, h, Bool.or_true, Bool.true_or]

/-- What may stand behind a number: nothing that would go on with it as a name does or as a float. -/
def EndsNumber (tail : List Char) : Prop := tail.head?.any (fun c => isNameChar c || c == '.') = false

/-- What ends a number goes on with none of its characters. -/
theorem EndsNumber.not_any {tail : List Char} (h : EndsNumber tail) {p : Char → Bool}
    (hp : ∀ c, p c = true → (isNameChar c || c == '.') = true) : tail.head?.any p = false := by
  refine Bool.eq_false_iff.2 fun hany => ?_
  obtain ⟨c, hc, hpc⟩ := (Option.any_eq_true ..).1 hany
  have hno : tail.head?.any (fun c => isNameChar c || c == '.') = false := h
  rw [hc, Option.any_some, hp c hpc] at hno
  cases hno

/-- What ends a word ends a number. -/
theorem EndsWord.endsNumber {tail : List Char} (h : EndsWord tail) : EndsNumber tail := by
  refine h.not_any fun c hc => ?_
  rw [Bool.or_eq_true, beq_iff_eq] at hc
  obtain hc | rfl := hc
  · exact isVisible_of_isNameChar hc
  · rfl

namespace Lexeme

/-! ## Numbers that are taken for none other -/

variable {word tail : List Char}

/-- Two words side by side are not read if the second one is not. -/
theorem glue_none {a b : Lexeme} {text head middle : List Char} (ha : a text = some (head, middle))
    (hb : b middle = none) : glue a b text = none := by
  simp [glue, ha, hb]

theorem unglued_none {l : Lexeme} {text : List Char} (h : l text = none) :
    unglued l text = none := by
  rw [unglued, checked, h]
  rfl

/-- Digits go up to the end of a number. -/
theorem digits_append_end {isDigit : Char → Bool} (hdigit : ∀ c, isDigit c = true → isNameChar c = true)
    (h : Form.digits isDigit word = true) (htail : EndsNumber tail) :
    run isDigit (fun c => isDigit c || c == '_') (word ++ tail) = some (word, tail) := by
  refine digits_append h (htail.not_any fun c hc => ?_)
  rw [Bool.or_eq_true, beq_iff_eq] at hc
  obtain hc | rfl := hc
  · rw [hdigit c hc, Bool.true_or]
  · rfl

/-- Digits with no point behind them are no float. -/
theorem float_digits_none (h : Form.digits Char.isDigit word = true) (htail : EndsNumber tail) :
    float (word ++ tail) = none := by
  refine unglued_none (glue_none (digits_append_end (fun _ => isNameChar_of_isDigit) h htail) ?_)
  have hpoint : tail.head?.any (· == '.') = false :=
    htail.not_any fun c hc => by rw [show (c == '.') = true from hc, Bool.or_true]
  cases tail with
  | nil => rfl
  | cons c cs =>
    have hc : c ≠ '.' := by simpa using hpoint
    simp [glue, exactly, hc.symm]

/-- Digits have no mark of a base in them. -/
theorem based_digits_none {mark : Char} {isDigit : Char → Bool}
    (hmark : isNameChar mark = true ∧ (mark.isDigit || mark == '_') = false)
    (h : Form.digits Char.isDigit word = true) (htail : EndsNumber tail) :
    based ['0', mark] isDigit (word ++ tail) = none := by
  refine unglued_none ?_
  have hnone : exactly ['0', mark] (word ++ tail) = none := by
    cases hread : exactly ['0', mark] (word ++ tail) with
    | none => rfl
    | some r =>
      obtain ⟨-, htext⟩ := exactly_eq_some.1 (show _ = some (r.1, r.2) from hread)
      exfalso
      match word, h with
      | [c], _ =>
        cases tail with
        | nil => cases htext
        | cons d ds =>
          have hd : d = mark := by
            simp only [List.cons_append, List.nil_append, List.cons.injEq] at htext
            exact htext.2.1
          have hno : (isNameChar d || d == '.') = false := htail
          rw [hd, hmark.1] at hno
          cases hno
      | c :: d :: ds, h =>
        have hd : d = mark := by
          simp only [List.cons_append, List.cons.injEq] at htext
          exact htext.2.1
        rw [Form.digits, Bool.and_eq_true, List.all_cons, Bool.and_eq_true, hd, hmark.2] at h
        exact absurd h.2.1 (by decide)
  simp [glue, hnone]

end Lexeme

namespace Grammar

open Production

variable {n m : Nat} {inner : Production} {stop : Char → Bool} {w : Word} {good : Tree → Prop}

/-- A leaf is not read where its lexeme reads nothing. -/
theorem leaf_rejects {rule : Rule} {l : Lexeme}
    (h : ∀ tail : List Char, EndsWord tail → l (w ++ tail) = none) :
    Rejects m (leaf rule l) stop [w] := by
  intro c rest _ hlaid _
  obtain ⟨tail, htext, htail⟩ := hlaid.trails
  rw [leaf, htext, h tail htail.endsWord]
  rfl

/-- The alternatives behind the lists between brackets. -/
def wordLiterals : List Production :=
  [leaf .stringLiteral .string, leaf .floatLiteral .float, leaf .hexLiteral .hex,
    leaf .binaryLiteral .binary, leaf .octalLiteral .octal, leaf .decimalLiteral .decimal,
    leaf .booleanLiteral .boolean]

/-- A word that does not start with a dollar sign is no list. -/
theorem literal_accepts_word {first : Char → Bool} {ws : List Word} (ho : Opens first ws)
    (hdollar : ∀ c, first c = true → (c == '$') = false)
    (h : Accepts m (firstOf wordLiterals) stop ws good) :
    Accepts m (literal n inner) stop ws good :=
  firstOf_accepts_tail (rejects_of_startsWith (bracketed_startsWith ..) ho hdollar)
    (firstOf_accepts_tail (rejects_of_startsWith (bracketed_startsWith ..) ho hdollar)
      (firstOf_accepts_tail (rejects_of_startsWith (bracketed_startsWith ..) ho hdollar) h))

/-- A string is read as such: no other literal starts with a quote. -/
theorem string_accepts (h : Form.string w = true) :
    Accepts m (literal n inner) stop [w] (IsLeaf .stringLiteral w) := by
  obtain ⟨content, rfl⟩ := Form.string_eq h
  have ho : Opens (· == '"') ['"' :: content ++ ['"']] := opens_cons _ [] rfl
  refine literal_accepts_word ho (fun c hc => by rw [beq_iff_eq.1 hc]; rfl) ?_
  exact firstOf_accepts_head (leaf_accepts (Lexeme.string_takes h))

/-- A word that starts with a digit is no string. -/
theorem literal_accepts_number {c : Char} {cs : Word} (hc : c.isDigit = true)
    (h : Accepts m (firstOf wordLiterals.tail) stop [c :: cs] good) :
    Accepts m (literal n inner) stop [c :: cs] good := by
  have ho : Opens Char.isDigit [c :: cs] := opens_cons cs [] hc
  have hne : ∀ d : Char, d.isDigit = false → ∀ c : Char, c.isDigit = true → (c == d) = false :=
    fun d hd c hc => beq_eq_false_iff_ne.2 (ne_of_isDigit hc hd)
  exact literal_accepts_word ho (hne '$' rfl)
    (firstOf_accepts_tail (rejects_of_startsWith (leaf_startsWith string_startsWith _) ho
      (hne '"' rfl)) h)

/-- A float is read as such, before its digits are taken for an integer. -/
theorem float_accepts (h : Form.float w = true) :
    Accepts m (literal n inner) stop [w] (IsLeaf .floatLiteral w) := by
  obtain ⟨whole, fraction, hwhole, hfraction, rfl⟩ := Form.float_eq h
  have htakes := Lexeme.float_takes hwhole hfraction
  cases whole with
  | nil => cases hwhole
  | cons c cs =>
    rw [Form.digits, Bool.and_eq_true] at hwhole
    exact literal_accepts_number hwhole.1 (firstOf_accepts_head (leaf_accepts htakes))

/-- A hexadecimal number is read as such, before its zero is taken for a decimal one. -/
theorem hex_accepts (h : Form.based ['0', 'x'] isHexDigit w = true) :
    Accepts m (literal n inner) stop [w] (IsLeaf .hexLiteral w) := by
  have htakes : Lexeme.hex.Takes w := Lexeme.based_takes (fun _ => isVisible_of_isHexDigit) h
  obtain ⟨digits, rfl⟩ := List.isPrefixOf_iff_prefix.1 ((Bool.and_eq_true ..).mp h).1
  exact literal_accepts_number rfl (firstOf_accepts_tail (leaf_rejects fun _ _ => rfl)
    (firstOf_accepts_head (leaf_accepts htakes)))

/-- A binary number is read as such. -/
theorem binary_accepts (h : Form.based ['0', 'b'] isBinaryDigit w = true) :
    Accepts m (literal n inner) stop [w] (IsLeaf .binaryLiteral w) := by
  have htakes : Lexeme.binary.Takes w := Lexeme.based_takes (fun _ => isVisible_of_isBinaryDigit) h
  obtain ⟨digits, rfl⟩ := List.isPrefixOf_iff_prefix.1 ((Bool.and_eq_true ..).mp h).1
  exact literal_accepts_number rfl (firstOf_accepts_tail (leaf_rejects fun _ _ => rfl)
    (firstOf_accepts_tail (leaf_rejects fun _ _ => rfl)
      (firstOf_accepts_head (leaf_accepts htakes))))

/-- An octal number is read as such. -/
theorem octal_accepts (h : Form.based ['0', 'c'] isOctalDigit w = true) :
    Accepts m (literal n inner) stop [w] (IsLeaf .octalLiteral w) := by
  have htakes : Lexeme.octal.Takes w := Lexeme.based_takes (fun _ => isVisible_of_isOctalDigit) h
  obtain ⟨digits, rfl⟩ := List.isPrefixOf_iff_prefix.1 ((Bool.and_eq_true ..).mp h).1
  exact literal_accepts_number rfl (firstOf_accepts_tail (leaf_rejects fun _ _ => rfl)
    (firstOf_accepts_tail (leaf_rejects fun _ _ => rfl)
      (firstOf_accepts_tail (leaf_rejects fun _ _ => rfl)
        (firstOf_accepts_head (leaf_accepts htakes)))))

/-- A decimal number is read as such, for no point and no prefix is in it. -/
theorem decimal_accepts (h : Form.digits Char.isDigit w = true) :
    Accepts m (literal n inner) stop [w] (IsLeaf .decimalLiteral w) := by
  have htakes := Lexeme.decimal_takes h
  have hfloat : ∀ tail, EndsWord tail → Lexeme.float (w ++ tail) = none :=
    fun tail htail => Lexeme.float_digits_none h htail.endsNumber
  have hbased : ∀ (mark : Char) (isDigit : Char → Bool),
      isNameChar mark = true ∧ (mark.isDigit || mark == '_') = false →
      ∀ tail, EndsWord tail → Lexeme.based ['0', mark] isDigit (w ++ tail) = none :=
    fun mark isDigit hmark tail htail => Lexeme.based_digits_none hmark h htail.endsNumber
  cases w with
  | nil => cases h
  | cons c cs =>
    rw [Form.digits, Bool.and_eq_true] at h
    exact literal_accepts_number h.1 (firstOf_accepts_tail (leaf_rejects hfloat)
      (firstOf_accepts_tail (leaf_rejects (hbased 'x' _ (by decide)))
        (firstOf_accepts_tail (leaf_rejects (hbased 'b' _ (by decide)))
          (firstOf_accepts_tail (leaf_rejects (hbased 'c' _ (by decide)))
            (firstOf_accepts_head (leaf_accepts htakes))))))

/-- A truth value is read as such. -/
theorem boolean_accepts (h : Form.boolean w = true) :
    Accepts m (literal n inner) stop [w] (IsLeaf .booleanLiteral w) := by
  have htakes := Lexeme.boolean_takes h
  have ho : Opens (· == '@') [w] := by
    rw [Form.boolean, Bool.or_eq_true, beq_iff_eq, beq_iff_eq] at h
    obtain rfl | rfl := h
    · exact opens_cons _ [] rfl
    · exact opens_cons _ [] rfl
  have hat : ∀ {first : Char → Bool}, first '@' = false → ∀ c, (c == '@') = true → first c = false :=
    fun hfirst c hc => by rw [beq_iff_eq.1 hc]; exact hfirst
  exact literal_accepts_word ho (hat rfl)
    (firstOf_accepts_tail (rejects_of_startsWith (leaf_startsWith string_startsWith _) ho (hat rfl))
    (firstOf_accepts_tail (rejects_of_startsWith (leaf_startsWith float_startsWith _) ho (hat rfl))
    (firstOf_accepts_tail
      (rejects_of_startsWith (leaf_startsWith (based_startsWith ..) _) ho (hat rfl))
    (firstOf_accepts_tail
      (rejects_of_startsWith (leaf_startsWith (based_startsWith ..) _) ho (hat rfl))
    (firstOf_accepts_tail
      (rejects_of_startsWith (leaf_startsWith (based_startsWith ..) _) ho (hat rfl))
    (firstOf_accepts_tail (rejects_of_startsWith (leaf_startsWith decimal_startsWith _) ho (hat rfl))
    (firstOf_accepts_head (leaf_accepts htakes))))))))

/-- The integers of each base. -/
theorem int_accepts {base : Base} (h : base.form w = true) :
    Accepts m (literal n inner) stop [w] (IsLeaf base.rule w) := by
  cases base with
  | decimal => exact decimal_accepts h
  | binary => exact binary_accepts h
  | hexadecimal => exact hex_accepts h
  | octal => exact octal_accepts h

end Grammar

end Chainlet
