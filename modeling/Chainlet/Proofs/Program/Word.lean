import Chainlet.Program.OfTree
import Chainlet.Proofs.Tree.Layout

/-!
# Proofs/Program/Word — words that stand for values

A string is its content between two quotes, and digits around a point write a number: every word of
the form that the grammar reads has a value.
-/

namespace Chainlet

/-! ## Strings -/

theorem unquoted?_quotes (content : List Char) :
    unquoted? (String.ofList ('"' :: content ++ ['"'])) = some (String.ofList content) := by
  simp [unquoted?]

/-! ## Numbers -/

/-- Digits without the underscores are digits, and at least one. -/
theorem Form.digits_filter {word : List Char} (h : Form.digits Char.isDigit word = true) :
    ∃ d ds, word.filter (· != '_') = d :: ds ∧ (d :: ds).all Char.isDigit = true := by
  cases word with
  | nil => cases h
  | cons d ds =>
    rw [digits, Bool.and_eq_true, List.all_eq_true] at h
    have hd : (d != '_') = true := by
      rw [bne_iff_ne]
      rintro rfl
      exact absurd h.1 (by decide)
    refine ⟨d, ds.filter (· != '_'), List.filter_cons_of_pos hd, ?_⟩
    rw [List.all_cons, h.1, Bool.true_and, List.all_eq_true]
    intro c hc
    rw [List.mem_filter, bne_iff_ne] at hc
    simpa [hc.2] using h.2 c hc.1

theorem ne_of_isDigit {c d : Char} (hc : c.isDigit = true) (hd : d.isDigit = false) : c ≠ d := by
  rintro rfl
  rw [hc] at hd
  cases hd

theorem toLower_of_isDigit {c : Char} (h : c.isDigit = true) : c.toLower = c := by
  rw [Char.isDigit, Bool.and_eq_true, decide_eq_true_eq, decide_eq_true_eq] at h
  exact dif_neg fun hupper => absurd (UInt32.le_trans hupper.1 h.2) (by decide)

/-- A text that starts with a digit is no name of a number. -/
theorem Binary32.magnitudeOfText?_of_isDigit {c : Char} {text : List Char} (h : c.isDigit = true) :
    magnitudeOfText? (c :: text) = (decimalOfText? (c :: text)).map Decimal.nearest := by
  have hname : ∀ (letter : Char) (letters : List Char), letter.isDigit = false →
      (c :: text).map Char.toLower ≠ letter :: letters := by
    intro letter letters hletter heq
    rw [List.map_cons, toLower_of_isDigit h, List.cons.injEq] at heq
    exact ne_of_isDigit h hletter heq.1
  have hinf : ¬((c :: text).map Char.toLower = "inf".toList ∨
      (c :: text).map Char.toLower = "infinity".toList) := by
    rintro (heq | heq)
    · exact hname 'i' ['n', 'f'] rfl heq
    · exact hname 'i' ['n', 'f', 'i', 'n', 'i', 't', 'y'] rfl heq
  have hnan : (c :: text).map Char.toLower ≠ "nan".toList := hname 'n' ['a', 'n'] rfl
  rw [magnitudeOfText?, if_neg hinf, if_neg hnan]

/-- A text that starts with a digit has no sign. -/
theorem Binary32.ofText?_of_isDigit {c : Char} {text : List Char} (h : c.isDigit = true) :
    ofText? (c :: text) = (decimalOfText? (c :: text)).map fun d => ofMagnitude false d.nearest := by
  rw [ofText?]
  · rw [magnitudeOfText?_of_isDigit h, Option.map_map]
    rfl
  · rintro rest hcons
    cases hcons
    cases h
  · rintro rest hcons
    cases hcons
    cases h

theorem Binary32.decimalOfText?_point {whole fraction : List Char} (hne : whole ≠ [])
    (hwhole : whole.all Char.isDigit = true) (hfraction : fraction.all Char.isDigit = true) :
    (decimalOfText? (whole ++ '.' :: fraction)).isSome = true := by
  have htake : (whole ++ '.' :: fraction).takeWhile Char.isDigit = whole := by
    rw [List.takeWhile_append_of_pos (List.all_eq_true.1 hwhole)]
    simp [show Char.isDigit '.' = false from rfl]
  have hdrop : (whole ++ '.' :: fraction).dropWhile Char.isDigit = '.' :: fraction := by
    rw [List.dropWhile_append_of_pos (List.all_eq_true.1 hwhole)]
    rfl
  have hrest : fraction.dropWhile Char.isDigit = [] := by
    rw [← List.append_nil fraction, List.dropWhile_append_of_pos (List.all_eq_true.1 hfraction)]
    rfl
  simp [decimalOfText?, htake, hdrop, hrest, hne, exponentOfText?]

/-- Digits around a point without the underscores are digits around a point. -/
theorem Form.float_filter {word : List Char} (h : float word = true) :
    ∃ d ds fraction, word.filter (· != '_') = d :: ds ++ '.' :: fraction ∧
      (d :: ds).all Char.isDigit = true ∧ fraction.all Char.isDigit = true := by
  obtain ⟨whole, fraction, hwhole, hfraction, rfl⟩ := float_eq h
  obtain ⟨d, ds, hw, hall⟩ := digits_filter hwhole
  obtain ⟨e, es, hf, hall'⟩ := digits_filter hfraction
  refine ⟨d, ds, e :: es, ?_, hall, hall'⟩
  rw [List.filter_append, hw, List.filter_cons_of_pos (by decide), hf]

/-- Digits around a point write a number without a sign, if they write one. -/
theorem floatValue?_eq {word : List Char} (h : Form.float word = true) :
    floatValue? (String.ofList word) = (Binary32.decimalOfText? (word.filter (· != '_'))).map
      fun d => Binary32.ofMagnitude false d.nearest := by
  obtain ⟨d, ds, fraction, hfilter, hall, -⟩ := Form.float_filter h
  rw [List.all_cons, Bool.and_eq_true] at hall
  rw [floatValue?, String.toList_ofList, hfilter, List.cons_append, Binary32.ofText?_of_isDigit hall.1]

/-- **Digits around a point write a number.** -/
theorem floatValue?_isSome {word : List Char} (h : Form.float word = true) :
    (floatValue? (String.ofList word)).isSome = true := by
  obtain ⟨d, ds, fraction, hfilter, hwhole, hfraction⟩ := Form.float_filter h
  rw [floatValue?_eq h, hfilter, Option.isSome_map]
  exact Binary32.decimalOfText?_point (List.cons_ne_nil d ds) hwhole hfraction

end Chainlet
