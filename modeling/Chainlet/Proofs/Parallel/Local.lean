import Mathlib.Data.List.TakeWhile
import Chainlet.Proofs.Parallel.Basic
import Chainlet.Proofs.Parallel.Fence

/-!
# Proofs/Parallel/Local — words are read from the text in front of a fence

No word but a string reaches over a character that may be a fence, so a word is read in the same way
whatever stands behind the text that has such a character in it (`Lexeme.Local`).  A string is read
in the same way if the text has a fence for a scan, which passes over strings.
-/

namespace Chainlet

namespace Lexeme

/-- A lexeme that reads nothing but the text up to a character that may be a fence. -/
def Local (l : Lexeme) : Prop :=
  ∀ ⦃text : List Char⦄ (more : List Char), text.any isFence = true →
    l (text ++ more) = (l text).map fun (word, rest) => (word, rest ++ more)

/-- A lexeme with no such characters in its words. -/
def Stays (l : Lexeme) : Prop :=
  ∀ ⦃text word rest : List Char⦄, l text = some (word, rest) → word.any isFence = false

variable {a b l : Lexeme}

/-- A lexeme that stays before the fences leaves a rest with a fence. -/
theorem Stays.rest (h : Stays l) (hsplits : Splits l) {text word rest : List Char}
    (hread : l text = some (word, rest)) (htext : text.any isFence = true) :
    rest.any isFence = true := by
  rw [hsplits _ _ _ hread, List.any_append, h hread, Bool.false_or] at htext
  exact htext

/-- What is put behind a fence does not change the first character. -/
theorem head?_append_of_any {rest : List Char} (h : rest.any isFence = true) (more : List Char) :
    (rest ++ more).head? = rest.head? := by
  cases rest with
  | nil => cases h
  | cons c cs => rfl

/-- A run that ends inside a text. -/
theorem takeWhile_append_of_dropWhile {p : Char → Bool} {text : List Char}
    (h : text.dropWhile p ≠ []) (more : List Char) :
    (text ++ more).takeWhile p = text.takeWhile p ∧
      (text ++ more).dropWhile p = text.dropWhile p ++ more := by
  induction text with
  | nil => cases h rfl
  | cons c cs ih =>
    rw [List.cons_append, List.takeWhile_cons, List.takeWhile_cons, List.dropWhile_cons,
      List.dropWhile_cons]
    rw [List.dropWhile_cons] at h
    cases hc : p c with
    | false => exact ⟨rfl, rfl⟩
    | true =>
      rw [if_pos hc] at h
      exact ⟨congrArg (c :: ·) (ih h).1, (ih h).2⟩

/-- What is put behind a fence does not change a run that ends at fences. -/
theorem takeWhile_append_of_any {p : Char → Bool} (hp : ∀ c, isFence c = true → p c = false)
    {text : List Char} (h : text.any isFence = true) (more : List Char) :
    (text ++ more).takeWhile p = text.takeWhile p ∧
      (text ++ more).dropWhile p = text.dropWhile p ++ more := by
  refine takeWhile_append_of_dropWhile (fun hnil => ?_) more
  obtain ⟨c, hc, hfence⟩ := List.any_eq_true.1 h
  have hall := List.dropWhile_eq_nil_iff.1 hnil c hc
  rw [hp c hfence] at hall
  cases hall

/-- A fixed text without a fence is read the same, whatever is put behind the next fence. -/
theorem exactly_local {fixed : List Char} (h : fixed.any isFence = false) :
    Local (exactly fixed) := by
  intro text more htext
  induction fixed generalizing text with
  | nil => rfl
  | cons c cs ih =>
    rw [List.any_cons, Bool.or_eq_false_iff] at h
    cases text with
    | nil => cases htext
    | cons d text =>
      rw [List.cons_append, exactly, exactly]
      split
      · next heq =>
        rw [List.any_cons, ← heq, h.1, Bool.false_or] at htext
        rw [ih h.2 htext, Option.map_map, Option.map_map]
        rfl
      · rfl

/-- One character, which may itself be a fence. -/
theorem exactly_single_local (c : Char) : Local (exactly [c]) := by
  intro text more htext
  cases text with
  | nil => cases htext
  | cons d text =>
    by_cases hc : c = d
    · simp [exactly, hc]
    · simp [exactly, hc]

/-- A fixed text without a fence stays before the fences. -/
theorem exactly_stays {fixed : List Char} (h : fixed.any isFence = false) : Stays (exactly fixed) := by
  intro text word rest hread
  rw [(exactly_eq_some.1 hread).1, h]

/-- A run that ends at fences is read the same, whatever is put behind the next fence. -/
theorem run_local {first next : Char → Bool} (hfirst : ∀ c, isFence c = true → first c = false)
    (hnext : ∀ c, isFence c = true → next c = false) : Local (run first next) := by
  intro text more htext
  cases text with
  | nil => cases htext
  | cons c cs =>
    rw [List.cons_append, run, run]
    split
    · next hc =>
      rw [List.any_cons, Bool.or_eq_true] at htext
      have hcs : cs.any isFence = true := by
        refine htext.resolve_left fun hfence => ?_
        rw [hfirst c hfence] at hc
        cases hc
      rw [(takeWhile_append_of_any hnext hcs more).1, (takeWhile_append_of_any hnext hcs more).2]
      rfl
    · rfl

/-- A run that ends at fences stays before them. -/
theorem run_stays {first next : Char → Bool} (hfirst : ∀ c, isFence c = true → first c = false)
    (hnext : ∀ c, isFence c = true → next c = false) : Stays (run first next) := by
  intro text word rest hread
  obtain ⟨c, cs, rfl, hc, rfl, -⟩ := run_eq_some.1 hread
  have hnone : ∀ {p : Char → Bool} {d : Char}, (∀ c, isFence c = true → p c = false) →
      p d = true → isFence d = false := fun hp hd => Bool.eq_false_iff.2 fun hfence => by
    rw [hp _ hfence] at hd
    cases hd
  rw [List.any_cons, hnone hfirst hc, Bool.false_or, List.any_eq_false]
  intro d hd
  rw [Bool.not_eq_true]
  exact hnone hnext (List.all_eq_true.1 List.all_takeWhile d hd)

/-- Two lexemes side by side are local if the first one leaves the fence to the second. -/
theorem glue_local (ha : Local a) (hstays : Stays a) (hsplits : Splits a) (hb : Local b) :
    Local (glue a b) := by
  intro text more htext
  rw [glue, glue, ha more htext]
  cases hread : a text with
  | none => rfl
  | some r =>
    have hrest := hstays.rest hsplits (show a text = some (r.1, r.2) from hread) htext
    change (do
      let (tail, rest) ← b (r.2 ++ more)
      pure (r.1 ++ tail, rest)) = Option.map _ (do
        let (tail, rest) ← b r.2
        pure (r.1 ++ tail, rest))
    rw [hb more hrest]
    cases b r.2 <;> rfl

/-- A choice of two local lexemes is local. -/
theorem either_local (ha : Local a) (hb : Local b) : Local (either a b) := by
  intro text more htext
  rw [either, either, ha more htext, hb more htext]
  cases a text <;> rfl

/-- A check that looks no further than the next fence keeps a lexeme local. -/
theorem checked_local (hl : Local l) (hstays : Stays l) (hsplits : Splits l)
    {test : List Char → List Char → Bool}
    (htest : ∀ (word : List Char) {rest : List Char} (more : List Char), rest.any isFence = true →
      test word (rest ++ more) = test word rest) : Local (checked l test) := by
  intro text more htext
  rw [checked, checked, hl more htext]
  cases hread : l text with
  | none => rfl
  | some r =>
    have hrest := hstays.rest hsplits (show l text = some (r.1, r.2) from hread) htext
    rw [Option.map_some, Option.filter_some, Option.filter_some]
    change (if test r.1 (r.2 ++ more) = true then _ else _) = _
    rw [htest r.1 more hrest]
    split <;> rfl

theorem unglued_local (hl : Local l) (hstays : Stays l) (hsplits : Splits l) :
    Local (unglued l) :=
  checked_local hl hstays hsplits fun _ _ _ hrest => by rw [head?_append_of_any hrest]

/-! ## The words of the language -/

/-- Classes with none of the characters in them that may be a fence. -/
theorem of_isFence {p : Char → Bool} (h : [';', ')', ']', '}'].any p = false) (c : Char)
    (hc : isFence c = true) : p c = false := by
  refine Bool.eq_false_iff.2 (List.any_eq_false.1 h c ?_)
  simp only [isFence, closesBracket, Bool.or_eq_true, beq_iff_eq] at hc
  simpa only [List.mem_cons, List.not_mem_nil, or_false] using hc

theorem name_local : Local name := run_local (of_isFence (by decide)) (of_isFence (by decide))

theorem keyword_local : Local keyword :=
  glue_local (exactly_local (by decide)) (exactly_stays (by decide)) (exactly_splits _) name_local

theorem operator_local : Local operator :=
  checked_local (run_local (of_isFence (by decide)) (of_isFence (by decide)))
    (run_stays (of_isFence (by decide)) (of_isFence (by decide))) (run_splits _ _)
    fun _ _ _ _ => rfl

theorem equals_local : Local equals :=
  checked_local (exactly_local (by decide)) (exactly_stays (by decide)) (exactly_splits _)
    fun _ _ _ hrest => by rw [head?_append_of_any hrest]

theorem digits_local : Local digits :=
  run_local (of_isFence (by decide)) (of_isFence (by decide))

theorem digits_stays : Stays digits :=
  run_stays (of_isFence (by decide)) (of_isFence (by decide))

theorem glue_stays (ha : Stays a) (hb : Stays b) : Stays (glue a b) := by
  intro text word rest hread
  obtain ⟨head, middle, tail, hhead, htail, rfl⟩ := glue_eq_some.1 hread
  rw [List.any_append, ha hhead, hb htail]
  rfl

theorem decimal_local : Local decimal := unglued_local digits_local digits_stays digits_splits

theorem point_local : Local (glue (exactly ['.']) digits) :=
  glue_local (exactly_local (by decide)) (exactly_stays (by decide)) (exactly_splits _) digits_local

theorem float_local : Local float :=
  unglued_local (glue_local digits_local digits_stays digits_splits point_local)
    (glue_stays digits_stays (glue_stays (exactly_stays (by decide)) digits_stays))
    (glue_splits digits_splits (glue_splits (exactly_splits _) digits_splits))

/-- A number with a prefix is local, for no fence is a digit. -/
theorem based_local {mark : List Char} {isDigit : Char → Bool} (hmark : mark.any isFence = false)
    (h : [';', ')', ']', '}'].any isDigit = false) : Local (based mark isDigit) := by
  have hnext := any_or_eq_false h (q := (· == '_')) (by decide)
  exact unglued_local
    (glue_local (exactly_local hmark) (exactly_stays hmark) (exactly_splits _)
      (run_local (of_isFence h) (of_isFence hnext)))
    (glue_stays (exactly_stays hmark) (run_stays (of_isFence h) (of_isFence hnext)))
    (glue_splits (exactly_splits _) (run_splits _ _))

theorem boolean_local : Local boolean := by
  refine unglued_local (either_local (exactly_local (by decide)) (exactly_local (by decide)))
    (fun text word rest hread => ?_) (either_splits (exactly_splits _) (exactly_splits _))
  obtain hread | hread := either_eq_some hread
  · exact exactly_stays (by decide) hread
  · exact exactly_stays (by decide) hread

end Lexeme

/-- **Every word but a string is read from the text in front of a fence.** -/
theorem IsWord.local {rule : Rule} {l : Lexeme} (h : IsWord rule l) (hne : rule ≠ .stringLiteral) :
    l.Local := by
  cases h
  case name => exact Lexeme.name_local
  case keyword => exact Lexeme.keyword_local
  case operator => exact Lexeme.operator_local
  case string => exact absurd rfl hne
  case float => exact Lexeme.float_local
  case hex => exact Lexeme.based_local (by decide) (by decide)
  case binary => exact Lexeme.based_local (by decide) (by decide)
  case octal => exact Lexeme.based_local (by decide) (by decide)
  case decimal => exact Lexeme.decimal_local
  case boolean => exact Lexeme.boolean_local

/-- Each sign of the grammar is local. -/
theorem IsSign.local {l : Lexeme} (h : IsSign l) : l.Local := by
  cases h
  case equals => exact Lexeme.equals_local
  all_goals exact Lexeme.exactly_local (by decide)

end Chainlet
