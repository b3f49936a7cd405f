import Chainlet.Proofs.Grammar.Tight
import Chainlet.Proofs.Parallel.Appended

/-!
# Proofs/Respaced/Word — words are read alike in front of other blanks

Two texts are `SameBehind` blanks if both start with a blank and go on in the same way where the blanks
end.  No word but a string has a blank in it, and none but a comment asks for more of the text behind it
than whether the next character belongs to it.  So such a word is `Even`: it is read, or is not, in front
of the one text as in front of the other.  A string may have blanks in it; it is read alike if a scan
that starts outside of strings is outside of them again where the blanks start (`Settled`).
-/

namespace Chainlet

/-- Two texts that start with blanks and are the same behind them. -/
structure SameBehind (z z' : List Char) : Prop where
  blank : z.head?.any isBlank = true
  blank' : z'.head?.any isBlank = true
  behind : z'.dropWhile isBlank = z.dropWhile isBlank

/-- A text that starts with a blank. -/
theorem exists_blank {z : List Char} (h : z.head?.any isBlank = true) :
    ∃ x xs, z = x :: xs ∧ isBlank x = true := by
  cases z with
  | nil => cases h
  | cons x xs => exact ⟨x, xs, rfl, h⟩

/-- A run of visible characters ends in front of a blank. -/
theorem takeWhile_blank {p : Char → Bool} (hp : ∀ c, p c = true → isVisible c = true) {z : List Char}
    (hz : z.head?.any isBlank = true) (u : List Char) :
    (u ++ z).takeWhile p = u.takeWhile p ∧ (u ++ z).dropWhile p = u.dropWhile p ++ z := by
  obtain ⟨x, xs, rfl, hx⟩ := exists_blank hz
  have hstop : p x = false := by
    refine Bool.eq_false_iff.2 fun hpx => ?_
    rw [isBlank_eq_false (hp x hpx)] at hx
    cases hx
  induction u with
  | nil => simp [hstop]
  | cons c cs ih =>
    simp only [List.cons_append, List.takeWhile_cons, List.dropWhile_cons]
    cases p c with
    | false => exact ⟨rfl, rfl⟩
    | true => exact ⟨congrArg (c :: ·) ih.1, ih.2⟩

/-! ## Words without blanks -/

/-- The same word, with the same text behind it up to the blanks. -/
def SameWord (z z' : List Char) (r r' : List Char × List Char) : Prop :=
  r'.1 = r.1 ∧ ∃ v, r.2 = v ++ z ∧ r'.2 = v ++ z'

namespace Lexeme

/-- A lexeme that reads alike in front of other blanks. -/
def Even (l : Lexeme) : Prop :=
  ∀ ⦃z z' : List Char⦄, SameBehind z z' → ∀ u, Option.Rel (SameWord z z') (l (u ++ z)) (l (u ++ z'))

variable {a b l : Lexeme}

theorem exactly_blank {c : Char} {cs z : List Char} (hc : isVisible c = true)
    (hz : z.head?.any isBlank = true) : exactly (c :: cs) z = none := by
  obtain ⟨x, xs, rfl, hx⟩ := exists_blank hz
  rw [exactly, if_neg]
  rintro rfl
  rw [isBlank_eq_false hc] at hx
  cases hx

theorem exactly_even {fixed : List Char} (h : fixed.all isVisible = true) : Even (exactly fixed) := by
  intro z z' hz u
  induction fixed generalizing u with
  | nil => exact .some ⟨rfl, u, rfl, rfl⟩
  | cons c cs ih =>
    rw [List.all_cons, Bool.and_eq_true] at h
    cases u with
    | nil =>
      rw [List.nil_append, List.nil_append, exactly_blank h.1 hz.blank, exactly_blank h.1 hz.blank']
      exact .none
    | cons d u =>
      rw [List.cons_append, List.cons_append, exactly, exactly]
      split
      · obtain ⟨hnone, hnone'⟩ | ⟨r, r', hsome, hsome', hword, hrest⟩ := rel_cases (ih h.2 u)
        · rw [hnone, hnone']
          exact .none
        · rw [hsome, hsome']
          exact .some ⟨congrArg (d :: ·) hword, hrest⟩
      · exact .none

theorem run_even {first next : Char → Bool} (hfirst : ∀ c, first c = true → isVisible c = true)
    (hnext : ∀ c, next c = true → isVisible c = true) : Even (run first next) := by
  intro z z' hz u
  have hstop : ∀ {z : List Char}, z.head?.any isBlank = true → run first next z = none := by
    intro z hz
    obtain ⟨x, xs, rfl, hx⟩ := exists_blank hz
    rw [run, if_neg]
    intro hx'
    rw [isBlank_eq_false (hfirst x hx')] at hx
    cases hx
  cases u with
  | nil =>
    rw [List.nil_append, List.nil_append, hstop hz.blank, hstop hz.blank']
    exact .none
  | cons c u =>
    obtain ⟨htake, hdrop⟩ := takeWhile_blank hnext hz.blank u
    obtain ⟨htake', hdrop'⟩ := takeWhile_blank hnext hz.blank' u
    rw [List.cons_append, List.cons_append, run, run]
    split
    · rw [htake, hdrop, htake', hdrop']
      exact .some ⟨rfl, _, rfl, rfl⟩
    · exact .none

theorem glue_even (ha : Even a) (hb : Even b) : Even (glue a b) := by
  intro z z' hz u
  refine rel_bind (ha hz u) fun r r' ⟨hword, v, hv, hv'⟩ => ?_
  dsimp only
  rw [hv, hv']
  refine rel_bind (hb hz v) fun s s' ⟨htail, hrest⟩ => ?_
  exact .some ⟨by rw [hword, htail], hrest⟩

theorem either_even (ha : Even a) (hb : Even b) : Even (either a b) := by
  intro z z' hz u
  rw [either, either]
  obtain ⟨hnone, hnone'⟩ | ⟨r, r', hsome, hsome', hrel⟩ := rel_cases (ha hz u)
  · rw [hnone, hnone']
    exact hb hz u
  · rw [hsome, hsome']
    exact .some hrel

/-- A word with a test on it and on the text behind it. -/
theorem checked_even (hl : Even l) {test : List Char → List Char → Bool}
    (htest : ∀ {z z' : List Char}, SameBehind z z' → ∀ word v,
      test word (v ++ z') = test word (v ++ z)) : Even (checked l test) := by
  intro z z' hz u
  rw [checked, checked]
  obtain ⟨hnone, hnone'⟩ | ⟨⟨word, rest⟩, r', hsome, hsome', hword, v, hv, hv'⟩ := rel_cases (hl hz u)
  · rw [hnone, hnone']
    exact .none
  · obtain ⟨word', rest'⟩ := r'
    dsimp only at hword hv hv'
    subst hword hv hv'
    rw [hsome, hsome', Option.filter_some, Option.filter_some]
    simp only [htest hz word' v]
    split
    · exact .some ⟨rfl, v, rfl, rfl⟩
    · exact .none

/-- Whether a word goes on does not depend on the blanks behind it. -/
theorem any_head?_even {p : Char → Bool} (hp : ∀ c, p c = true → isVisible c = true) {z z' : List Char}
    (hz : SameBehind z z') (v : List Char) : (v ++ z').head?.any p = (v ++ z).head?.any p := by
  have hblank : ∀ {z : List Char}, z.head?.any isBlank = true → z.head?.any p = false := by
    intro z hz
    obtain ⟨x, xs, rfl, hx⟩ := exists_blank hz
    refine Bool.eq_false_iff.2 fun hpx => ?_
    rw [isBlank_eq_false (hp x hpx)] at hx
    cases hx
  cases v with
  | nil => rw [List.nil_append, List.nil_append, hblank hz.blank, hblank hz.blank']
  | cons c cs => rfl

theorem unglued_even (hl : Even l) : Even (unglued l) :=
  checked_even hl fun hz _ v => by rw [any_head?_even (fun _ => isVisible_of_isNameChar) hz v]

/-! ## The words of the language -/

theorem isVisible_of_isNext {isDigit : Char → Bool} (h : ∀ c, isDigit c = true → isVisible c = true)
    (c : Char) (hc : (isDigit c || c == '_') = true) : isVisible c = true := by
  rw [Bool.or_eq_true, beq_iff_eq] at hc
  obtain hc | rfl := hc
  · exact h c hc
  · rfl

theorem name_even : Even name :=
  run_even (fun _ => isVisible_of_isNameStart) fun _ => isVisible_of_isNameChar

theorem digits_even : Even digits :=
  run_even (fun _ => isVisible_of_isDigit) (isVisible_of_isNext fun _ => isVisible_of_isDigit)

theorem operator_even : Even operator :=
  checked_even (run_even (fun _ => isVisible_of_isOperatorChar) fun _ => isVisible_of_isOperatorChar)
    fun _ _ _ => rfl

theorem equals_even : Even equals :=
  checked_even (exactly_even rfl) fun hz _ v => by
    rw [any_head?_even (fun _ => isVisible_of_isOperatorChar) hz v]

theorem based_even {mark : List Char} {isDigit : Char → Bool} (hmark : mark.all isVisible = true)
    (hdigit : ∀ c, isDigit c = true → isVisible c = true) : Even (based mark isDigit) :=
  unglued_even (glue_even (exactly_even hmark) (run_even hdigit (isVisible_of_isNext hdigit)))

end Lexeme

/-- **Every word but a string reads alike in front of other blanks.** -/
theorem IsWord.even {rule : Rule} {l : Lexeme} (h : IsWord rule l) (hne : rule ≠ .stringLiteral) :
    l.Even := by
  cases h
  case name => exact Lexeme.name_even
  case keyword => exact Lexeme.glue_even (Lexeme.exactly_even rfl) Lexeme.name_even
  case operator => exact Lexeme.operator_even
  case string => exact absurd rfl hne
  case float =>
    exact Lexeme.unglued_even (Lexeme.glue_even Lexeme.digits_even
      (Lexeme.glue_even (Lexeme.exactly_even rfl) Lexeme.digits_even))
  case hex => exact Lexeme.based_even rfl fun _ => isVisible_of_isHexDigit
  case binary => exact Lexeme.based_even rfl fun _ => isVisible_of_isBinaryDigit
  case octal => exact Lexeme.based_even rfl fun _ => isVisible_of_isOctalDigit
  case decimal => exact Lexeme.unglued_even Lexeme.digits_even
  case boolean =>
    exact Lexeme.unglued_even
      (Lexeme.either_even (Lexeme.exactly_even (by decide)) (Lexeme.exactly_even (by decide)))

theorem IsSign.even {l : Lexeme} (h : IsSign l) : l.Even := by
  cases h
  case equals => exact Lexeme.equals_even
  all_goals exact Lexeme.exactly_even rfl

/-! ## Strings -/

/-- Where a scan is behind a character. -/
def ScanMode.next : ScanMode → Char → ScanMode
  | .text, c => if c = '"' then .string else .text
  | .string, c => if c = '"' then .text else if c = '\\' then .escape else .string
  | .escape, _ => .string

/-- Where a scan is behind a text. -/
def ScanMode.scan (mode : ScanMode) (u : List Char) : ScanMode := u.foldl ScanMode.next mode

/-- A text with no string left open at its end. -/
def Settled (u : List Char) : Prop := ScanMode.text.scan u = .text

theorem ScanMode.scan_cons (mode : ScanMode) (c : Char) (u : List Char) :
    mode.scan (c :: u) = (mode.next c).scan u := rfl

theorem ScanMode.scan_append (mode : ScanMode) (u v : List Char) :
    mode.scan (u ++ v) = (mode.scan u).scan v := List.foldl_append

/-- A text behind another one that is settled. -/
theorem Settled.append_iff {w v : List Char} (hw : Settled w) : Settled (w ++ v) ↔ Settled v := by
  rw [Settled, ScanMode.scan_append, hw, Settled]

theorem settled_of_not_quote {w : List Char} (h : w.all (· != '"') = true) : Settled w := by
  induction w with
  | nil => rfl
  | cons c cs ih =>
    rw [List.all_cons, Bool.and_eq_true, bne_iff_ne] at h
    rw [Settled, ScanMode.scan_cons, ScanMode.next, if_neg h.1]
    exact ih h.2

theorem settled_of_plain {w : List Char} (h : w.all isPlain = true) : Settled w := by
  refine settled_of_not_quote (List.all_eq_true.2 fun c hc => bne_iff_ne.2 ?_)
  rintro rfl
  exact absurd (List.all_eq_true.1 h _ hc) (by decide)

/-- The rest of a string leaves it. -/
theorem scan_closed {w : List Char} (h : Form.closed w = true) : ScanMode.string.scan w = .text := by
  fun_induction Form.closed w with
  | case1 => cases h
  | case2 c cs ih => exact ih h
  | case3 cs hback =>
    rw [List.isEmpty_iff.1 h]
    rfl
  | case4 c cs hback hc ih =>
    have hne : c ≠ '\\' := by
      rintro rfl
      cases cs with
      | nil => cases h
      | cons d ds => exact hback d ds rfl rfl
    rw [ScanMode.scan_cons, ScanMode.next, if_neg hc, if_neg hne]
    exact ih h

/-- **A word inside an item leaves no string open.** -/
theorem Rule.word_settled {r : Rule} {form : List Char → Bool} {w : List Char}
    (hform : r.form? = some form) (hdoc : r ≠ .docComment) (hw : form w = true) : Settled w := by
  by_cases hstring : r = .stringLiteral
  · subst hstring
    cases hform
    unfold Form.string at hw
    split at hw
    · exact scan_closed hw
    · cases hw
  · exact settled_of_plain (r.word_plain hform hdoc hstring hw)

/-- A string that is closed in a text is read whatever stands behind the text. -/
theorem closingQuote_of_scan {u : List Char} (h : ScanMode.string.scan u = .text) :
    ∃ word rest, Settled rest ∧ ∀ z, Lexeme.closingQuote (u ++ z) = some (word, rest ++ z) := by
  fun_induction Lexeme.closingQuote u with
  | case1 => cases h
  | case2 text => exact ⟨['"'], text, h, fun z => rfl⟩
  | case3 c text ih =>
    obtain ⟨word, rest, hrest, hread⟩ := ih h
    refine ⟨'\\' :: c :: word, rest, hrest, fun z => ?_⟩
    rw [List.cons_append, List.cons_append, Lexeme.closingQuote, hread]
    rfl
  | case4 c text hquote hback ih =>
    have hne : c ≠ '\\' := by
      rintro rfl
      cases text with
      | nil => cases h
      | cons d ds => exact hback d ds rfl rfl
    rw [ScanMode.scan_cons, ScanMode.next, if_neg hquote, if_neg hne] at h
    obtain ⟨word, rest, hrest, hread⟩ := ih h
    refine ⟨c :: word, rest, hrest, fun z => ?_⟩
    rw [List.cons_append, Lexeme.closingQuote, hread]
    · rfl
    · exact hquote
    · intro d ds hcons
      exact absurd hcons hne

/-- **A string reads alike in front of other blanks, if none is open there.** -/
theorem string_even {z z' u : List Char} (hz : SameBehind z z') (hu : Settled u) :
    Option.Rel (SameWord z z') (Lexeme.string (u ++ z)) (Lexeme.string (u ++ z')) := by
  have hnone : ∀ {c : Char}, c ≠ '"' → ∀ cs, Lexeme.string (c :: cs) = none := by
    intro c hc cs
    simp [Lexeme.string, Lexeme.glue, Lexeme.exactly, hc.symm]
  cases u with
  | nil =>
    have hblank : ∀ {z : List Char}, z.head?.any isBlank = true → Lexeme.string z = none := by
      intro z hz
      obtain ⟨x, xs, rfl, hx⟩ := exists_blank hz
      refine hnone ?_ xs
      rintro rfl
      exact absurd hx (by decide)
    rw [List.nil_append, List.nil_append, hblank hz.blank, hblank hz.blank']
    exact .none
  | cons c cs =>
    by_cases hc : c = '"'
    · subst hc
      obtain ⟨word, rest, -, hread⟩ := closingQuote_of_scan (u := cs) hu
      have hstring : ∀ z, Lexeme.string ('"' :: cs ++ z) = some ('"' :: word, rest ++ z) := fun z =>
        Lexeme.glue_eq_some.2 ⟨['"'], cs ++ z, word, Lexeme.exactly_eq_some.2 ⟨rfl, rfl⟩, hread z, rfl⟩
      rw [hstring, hstring]
      exact .some ⟨rfl, rest, rfl, rfl⟩
    · rw [List.cons_append, List.cons_append, hnone hc, hnone hc]
      exact .none

end Chainlet
