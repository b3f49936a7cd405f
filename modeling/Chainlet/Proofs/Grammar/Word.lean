import Chainlet.Proofs.Tree.Layout

/-!
# Proofs/Grammar/Word — every word has the form of its kind

What each way of making lexemes reads, as an equivalence, and from that the form of every word of the
language: `Lexeme.Forms` says that a lexeme reads words of a form only.
-/

namespace Chainlet

namespace Lexeme

variable {text word rest fixed : List Char} {a b l : Lexeme} {first next : Char → Bool}

/-! ## What is read -/

/-- A fixed text is read where the text begins with it. -/
theorem exactly_eq_some :
    exactly fixed text = some (word, rest) ↔ word = fixed ∧ text = fixed ++ rest := by
  induction fixed generalizing text word with
  | nil =>
    rw [exactly, Option.some.injEq, Prod.mk.injEq]
    exact and_congr eq_comm Iff.rfl
  | cons c cs ih =>
    cases text with
    | nil => simp [exactly]
    | cons d text =>
      rw [exactly]
      by_cases hcd : c = d
      · subst hcd
        rw [if_pos rfl, Option.map_eq_some_iff]
        constructor
        · rintro ⟨⟨tail, left⟩, htail, heq⟩
          cases heq
          obtain ⟨rfl, rfl⟩ := ih.1 htail
          exact ⟨rfl, rfl⟩
        · rintro ⟨rfl, htext⟩
          exact ⟨(cs, rest), ih.2 ⟨rfl, by simpa using htext⟩, rfl⟩
      · rw [if_neg hcd]
        simp [Ne.symm hcd]

/-- A run is read as its first character and all that go on with it. -/
theorem run_eq_some :
    run first next text = some (word, rest) ↔
      ∃ c cs, text = c :: cs ∧ first c = true ∧ word = c :: cs.takeWhile next ∧
        rest = cs.dropWhile next := by
  cases text with
  | nil => simp [run]
  | cons c cs =>
    rw [run]
    by_cases hc : first c = true
    · rw [if_pos hc, Option.some.injEq, Prod.mk.injEq]
      constructor
      · rintro ⟨rfl, rfl⟩
        exact ⟨c, cs, rfl, hc, rfl, rfl⟩
      · rintro ⟨d, ds, hcons, -, rfl, rfl⟩
        cases hcons
        exact ⟨rfl, rfl⟩
    · rw [if_neg hc]
      refine ⟨fun h => absurd h (Option.some_ne_none _).symm, ?_⟩
      rintro ⟨d, ds, hcons, hd, -⟩
      cases hcons
      exact absurd hd hc

/-- Two words side by side are read one after the other. -/
theorem glue_eq_some :
    glue a b text = some (word, rest) ↔
      ∃ head middle tail, a text = some (head, middle) ∧ b middle = some (tail, rest) ∧
        word = head ++ tail := by
  simp only [glue, Option.bind_eq_bind, Option.bind_eq_some_iff, Option.pure_def,
    Option.some.injEq, Prod.mk.injEq, Prod.exists]
  constructor
  · rintro ⟨head, middle, hhead, tail, left, htail, rfl, rfl⟩
    exact ⟨head, middle, tail, hhead, htail, rfl⟩
  · rintro ⟨head, middle, tail, hhead, htail, rfl⟩
    exact ⟨head, middle, hhead, tail, rest, htail, rfl, rfl⟩

/-- A checked word is read if it passes its test. -/
theorem checked_eq_some {test : List Char → List Char → Bool} :
    checked l test text = some (word, rest) ↔
      l text = some (word, rest) ∧ test word rest = true := by
  rw [checked, Option.filter_eq_some_iff]

/-- A word that must not run on is read if no character of a name follows. -/
theorem unglued_eq_some :
    unglued l text = some (word, rest) ↔
      l text = some (word, rest) ∧ rest.head?.any isNameChar = false := by
  rw [unglued, checked_eq_some, Bool.not_eq_true']

/-- One of two lexemes has read a word. -/
theorem either_eq_some (h : either a b text = some (word, rest)) :
    a text = some (word, rest) ∨ b text = some (word, rest) := by
  rw [either] at h
  cases ha : a text with
  | none => exact .inr (by simpa [ha] using h)
  | some _ => exact .inl (by simpa [ha] using h)

/-! ## Forms -/

/-- A lexeme that reads words of a form only. -/
def Forms (l : Lexeme) (form : List Char → Bool) : Prop :=
  ∀ ⦃text word rest : List Char⦄, l text = some (word, rest) → form word = true

/-- Runs of digits have the form of digits. -/
theorem run_digits_forms (isDigit : Char → Bool) :
    Forms (run isDigit fun c => isDigit c || c == '_') (Form.digits isDigit) := by
  intro text word rest h
  obtain ⟨c, cs, rfl, hc, rfl, rfl⟩ := run_eq_some.1 h
  rw [Form.digits, hc, Bool.true_and]
  exact List.all_takeWhile

theorem name_forms : Forms name Form.name := by
  intro text word rest h
  obtain ⟨c, cs, rfl, hc, rfl, rfl⟩ := run_eq_some.1 h
  rw [Form.name, hc, Bool.true_and]
  exact List.all_takeWhile

theorem keyword_forms : Forms keyword Form.keyword := by
  intro text word rest h
  obtain ⟨head, middle, tail, hhead, htail, rfl⟩ := glue_eq_some.1 h
  obtain ⟨rfl, rfl⟩ := exactly_eq_some.1 hhead
  exact name_forms htail

theorem operator_forms : Forms operator Form.operator := by
  intro text word rest h
  obtain ⟨hrun, hword⟩ := checked_eq_some.1 h
  obtain ⟨c, cs, rfl, hc, rfl, rfl⟩ := run_eq_some.1 hrun
  rw [Form.operator, hword, List.all_cons, hc]
  simp

theorem docComment_forms : Forms docComment Form.docComment := by
  intro text word rest h
  obtain ⟨head, middle, tail, hhead, htail, rfl⟩ := glue_eq_some.1 h
  obtain ⟨rfl, rfl⟩ := exactly_eq_some.1 hhead
  cases htail
  exact List.all_takeWhile

/-- The rest of a string has an end, and quotes inside it are escaped. -/
theorem closingQuote_forms : Forms closingQuote Form.closed := by
  intro text word rest h
  fun_induction closingQuote text generalizing word with
  | case1 => cases h
  | case2 text => cases h; rfl
  | case3 c text ih =>
    obtain ⟨⟨tail, left⟩, htail, heq⟩ := Option.map_eq_some_iff.1 h
    cases heq
    rw [Form.closed]
    exact ih htail
  | case4 c text hquote hescape ih =>
    obtain ⟨⟨tail, left⟩, htail, heq⟩ := Option.map_eq_some_iff.1 h
    cases heq
    have hc : c ≠ '"' := hquote
    rw [Form.closed, if_neg hc]
    · exact ih htail
    · intro d ds hback hcons
      have hsplit : text = tail ++ rest := closingQuote_splits _ _ _ htail
      exact hescape d (ds ++ rest) hback (by rw [hsplit, hcons]; rfl)

theorem string_forms : Forms string Form.string := by
  intro text word rest h
  obtain ⟨head, middle, tail, hhead, htail, rfl⟩ := glue_eq_some.1 h
  obtain ⟨rfl, rfl⟩ := exactly_eq_some.1 hhead
  exact closingQuote_forms htail

theorem decimal_forms : Forms decimal (Form.digits Char.isDigit) :=
  fun _ _ _ h => run_digits_forms Char.isDigit (unglued_eq_some.1 h).1

/-- No digits contain a point. -/
theorem ne_point_of_digits {digits : List Char} (h : Form.digits Char.isDigit digits = true) :
    ∀ c ∈ digits, (c != '.') = true := by
  have hpoint : ∀ c : Char, (c.isDigit || c == '_') = true → (c != '.') = true := by
    intro c hc
    rw [bne_iff_ne]
    rintro rfl
    exact absurd hc (by decide)
  cases digits with
  | nil => cases h
  | cons d ds =>
    rw [Form.digits, Bool.and_eq_true, List.all_eq_true] at h
    intro c hc
    obtain rfl | hmem := List.mem_cons.1 hc
    · exact hpoint c (by rw [h.1]; rfl)
    · exact hpoint c (h.2 c hmem)

/-- A point between two runs of digits. -/
theorem float_point {whole fraction : List Char} (hwhole : Form.digits Char.isDigit whole = true)
    (hfraction : Form.digits Char.isDigit fraction = true) :
    Form.float (whole ++ '.' :: fraction) = true := by
  have hne := ne_point_of_digits hwhole
  rw [Form.float, List.takeWhile_append_of_pos hne, List.dropWhile_append_of_pos hne]
  simp [hwhole, hfraction]

/-- Floats have the form of digits around a point. -/
theorem float_forms : Forms float Form.float := by
  intro text word rest h
  obtain ⟨whole, m₁, tail, hwhole, htail, rfl⟩ := glue_eq_some.1 (unglued_eq_some.1 h).1
  obtain ⟨point, m₂, fraction, hpoint, hfraction, rfl⟩ := glue_eq_some.1 htail
  obtain ⟨rfl, rfl⟩ := exactly_eq_some.1 hpoint
  exact float_point (run_digits_forms Char.isDigit hwhole) (run_digits_forms Char.isDigit hfraction)

/-- Numbers with a prefix have their form. -/
theorem based_forms (mark : List Char) (isDigit : Char → Bool) :
    Forms (based mark isDigit) (Form.based mark isDigit) := by
  intro text word rest h
  obtain ⟨head, middle, tail, hhead, htail, rfl⟩ := glue_eq_some.1 (unglued_eq_some.1 h).1
  obtain ⟨rfl, rfl⟩ := exactly_eq_some.1 hhead
  rw [Form.based, List.drop_left, run_digits_forms isDigit htail]
  simp

theorem boolean_forms : Forms boolean Form.boolean := by
  intro text word rest h
  rw [Form.boolean, Bool.or_eq_true, beq_iff_eq, beq_iff_eq]
  exact (either_eq_some (unglued_eq_some.1 h).1).imp (fun h => (exactly_eq_some.1 h).1)
    fun h => (exactly_eq_some.1 h).1

end Lexeme

/-! ## Words are not empty -/

/-- No rule has an empty word. -/
theorem Rule.word_ne_nil {r : Rule} {form : List Char → Bool} (h : r.form? = some form)
    {word : List Char} (hword : form word = true) : word ≠ [] := by
  rintro rfl
  cases r <;> cases h <;> exact absurd hword (by decide)

end Chainlet
