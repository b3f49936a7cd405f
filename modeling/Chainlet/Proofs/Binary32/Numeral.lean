import Chainlet.Binary32.Numeral
import Chainlet.Proofs.Binary32.Shortest
import Chainlet.Proofs.Program.Word
import Chainlet.Proofs.Text.PrefixCode

/-!
# Proofs/Binary32/Numeral — the text of a number reads back

Digits around a point, with or without a power of ten, write a decimal of the same value
(`Numeral.decimalOfText?_decimalText`).  So **the text of a finite number is read as that number**, in
every style (`Binary32.ofText?_text`), and two numbers with one text are the same.
-/

namespace Chainlet

/-! ## Digits -/

theorem digitsValue_eq (text : List Char) : Binary32.digitsValue text = Nat.ofDigitChars 10 text 0 :=
  rfl

theorem digitsValue_toDigits (n : Nat) : Binary32.digitsValue (Nat.toDigits 10 n) = n :=
  Nat.ofDigitChars_ten_toDigits

theorem toList_toString (n : Nat) : (toString n).toList = Nat.toDigits 10 n := by
  rw [Nat.toString_eq_ofList_toDigits, String.toList_ofList]

theorem toString_inj {m n : Nat} : toString m = toString n ↔ m = n := by
  refine ⟨fun h => ?_, congrArg toString⟩
  rw [← digitsValue_toDigits m, ← toList_toString, h, toList_toString, digitsValue_toDigits]

theorem toDigits_isDigit (n : Nat) : (Nat.toDigits 10 n).all Char.isDigit = true :=
  List.all_eq_true.2 fun _ => Nat.isDigit_of_mem_toDigits (by decide) (by decide)

theorem replicate_isDigit (n : Nat) : (List.replicate n '0').all Char.isDigit = true := by
  rw [List.all_replicate]
  split <;> rfl

/-- Zeros in front of digits mean nothing, and zeros behind them are powers of ten. -/
theorem digitsValue_zeros (digits : List Char) (n : Nat) :
    Binary32.digitsValue (List.replicate n '0' ++ digits) = Binary32.digitsValue digits := by
  rw [digitsValue_eq, digitsValue_eq, Nat.ofDigitChars_append, Nat.ofDigitChars_replicate_zero,
    Nat.mul_zero]

theorem digitsValue_append_zeros (digits : List Char) (n : Nat) :
    Binary32.digitsValue (digits ++ List.replicate n '0') = Binary32.digitsValue digits * 10 ^ n := by
  rw [digitsValue_eq, digitsValue_eq, Nat.ofDigitChars_append, Nat.ofDigitChars_replicate_zero,
    Nat.mul_comm]

/-! ## Decimals in a text -/

/-- Digits, a point and more digits, in front of an exponent. -/
theorem decimalOfText?_pointed (whole fraction rest : List Char) {e : Int}
    (hwhole : whole.all Char.isDigit = true) (hne : whole ≠ [])
    (hfraction : fraction.all Char.isDigit = true) (hrest : EndsRun Char.isDigit rest)
    (he : Binary32.exponentOfText? rest = some e) :
    Binary32.decimalOfText? (whole ++ '.' :: (fraction ++ rest))
      = some ⟨Binary32.digitsValue (whole ++ fraction), e - fraction.length⟩ := by
  obtain ⟨htake, hdrop⟩ := @takeWhile_run _ _ _ ('.' :: (fraction ++ rest)) hwhole rfl
  obtain ⟨htake', hdrop'⟩ := takeWhile_run hfraction hrest
  simp only [Binary32.decimalOfText?, htake, hdrop, htake', hdrop', he, hne, false_and, if_false]
  rfl

/-- Digits alone, in front of an exponent. -/
theorem decimalOfText?_whole (whole rest : List Char) {e : Int}
    (hwhole : whole.all Char.isDigit = true) (hne : whole ≠ []) (hrest : EndsRun Char.isDigit rest)
    (hpoint : ∀ rest', rest ≠ '.' :: rest') (he : Binary32.exponentOfText? rest = some e) :
    Binary32.decimalOfText? (whole ++ rest) = some ⟨Binary32.digitsValue whole, e⟩ := by
  obtain ⟨htake, hdrop⟩ := takeWhile_run hwhole hrest
  simp [Binary32.decimalOfText?, htake, hdrop, hne, he]

namespace Numeral

/-! ## Numbers written out -/

section Pointed

variable {digits : List Char} (hdigits : digits.all Char.isDigit = true)

include hdigits

/-- Only zeros stand in front of the digits. -/
theorem decimalOfText?_leading (zeros : Nat) :
    Binary32.decimalOfText? ('0' :: '.' :: (List.replicate zeros '0' ++ digits))
      = some ⟨Binary32.digitsValue digits, -(zeros + digits.length : Nat)⟩ := by
  have hfraction : (List.replicate zeros '0' ++ digits).all Char.isDigit := by
    rw [List.all_append, replicate_isDigit, hdigits]
    rfl
  have hread := decimalOfText?_pointed ['0'] _ [] rfl (List.cons_ne_nil _ _) hfraction rfl rfl
  rw [List.append_nil, ← List.append_assoc, show ['0'] = List.replicate 1 '0' from rfl,
    List.replicate_append_replicate, digitsValue_zeros, List.length_append, List.length_replicate,
    Int.zero_sub] at hread
  exact hread

/-- Only zeros stand between the digits and the point, which is written or not. -/
theorem decimalOfText?_trailing (keepsPoint : Bool) (hne : digits ≠ []) (zeros : Nat) :
    ∃ k : Nat, Binary32.decimalOfText?
        (digits ++ List.replicate zeros '0' ++ (if keepsPoint then ['.', '0'] else []))
      = some ⟨Binary32.digitsValue digits * 10 ^ (zeros + k), -k⟩ := by
  have hall : (digits ++ List.replicate zeros '0').all Char.isDigit := by
    rw [List.all_append, replicate_isDigit, hdigits]
    rfl
  have hne' : digits ++ List.replicate zeros '0' ≠ [] := List.append_ne_nil_of_left_ne_nil hne _
  cases keepsPoint with
  | false =>
    have hread := decimalOfText?_whole _ [] hall hne' rfl (fun _ => nofun) rfl
    rw [digitsValue_append_zeros] at hread
    exact ⟨0, hread⟩
  | true =>
    have hread := decimalOfText?_pointed _ ['0'] [] hall hne' rfl rfl rfl
    rw [show ['0'] = List.replicate 1 '0' from rfl, digitsValue_append_zeros,
      digitsValue_append_zeros, Nat.mul_assoc, ← Nat.pow_add] at hread
    exact ⟨1, hread⟩

/-- The point stands between the digits. -/
theorem decimalOfText?_inside (hne : digits ≠ []) {whole : Nat} (hwhole : whole ≠ 0) :
    Binary32.decimalOfText? (digits.take whole ++ '.' :: digits.drop whole)
      = some ⟨Binary32.digitsValue digits, -(digits.length - whole : Nat)⟩ := by
  have hsplit : (digits.take whole).all Char.isDigit ∧ (digits.drop whole).all Char.isDigit := by
    rw [← Bool.and_eq_true, ← List.all_append, List.take_append_drop]
    exact hdigits
  have hne' : digits.take whole ≠ [] := by
    rw [Ne, List.take_eq_nil_iff]
    exact not_or.2 ⟨hwhole, hne⟩
  have hread := decimalOfText?_pointed _ _ [] hsplit.1 hne' hsplit.2 rfl rfl
  rw [List.append_nil, List.take_append_drop, List.length_drop, Int.zero_sub] at hread
  exact hread

end Pointed

/-- Digits around a point have the value of the digits, less the places behind the point. -/
theorem decimalOfText?_pointedDigits (keepsPoint : Bool) (n : Nat) (e : Int) :
    ∃ k : Nat, Binary32.decimalOfText?
        (pointed keepsPoint (Nat.toDigits 10 n) (e + (Nat.toDigits 10 n).length))
      = some ⟨n * 10 ^ k, e - k⟩ := by
  have hdigits := toDigits_isDigit n
  have hvalue := digitsValue_toDigits n
  have hne : Nat.toDigits 10 n ≠ [] := Nat.toDigits_ne_nil
  generalize Nat.toDigits 10 n = digits at *
  unfold pointed
  split
  · refine ⟨0, (decimalOfText?_leading hdigits _).trans ?_⟩
    rw [hvalue, Nat.pow_zero, Nat.mul_one]
    congr 2
    omega
  · next hpos =>
    obtain ⟨whole, hwhole⟩ := Int.eq_ofNat_of_zero_le (show 0 ≤ e + digits.length by omega)
    rw [hwhole, Int.natAbs_natCast]
    split
    · obtain ⟨k, hread⟩ := decimalOfText?_trailing hdigits keepsPoint hne (whole - digits.length)
      refine ⟨whole - digits.length + k, hread.trans ?_⟩
      rw [hvalue]
      congr 2
      omega
    · refine ⟨0, (decimalOfText?_inside hdigits hne (by omega)).trans ?_⟩
      rw [hvalue, Nat.pow_zero, Nat.mul_one]
      congr 2
      omega

/-! ## Numbers with a power of ten -/

theorem exponentOfText?_signed (power : Int) :
    Binary32.exponentOfText? ('e' :: (if power < 0 then '-' else '+') :: Nat.toDigits 10 power.natAbs)
      = some power := by
  have hdigits := List.all_eq_true.1 (toDigits_isDigit power.natAbs)
  have hsome : Nat.toDigits 10 power.natAbs ≠ [] := Nat.toDigits_ne_nil
  split
  · simp only [Binary32.exponentOfText?, digitsValue_toDigits, List.all_eq_true.2 hdigits]
    rw [if_pos (.inl trivial), if_pos ⟨hsome, trivial⟩, if_pos trivial, Option.some_inj]
    omega
  · simp only [Binary32.exponentOfText?, digitsValue_toDigits, List.all_eq_true.2 hdigits]
    rw [if_pos (.inl trivial), if_pos ⟨hsome, trivial⟩, if_neg Bool.false_ne_true, Option.some_inj]
    omega

/-- Digits with the point behind the first one, and the power of ten of that digit. -/
theorem decimalOfText?_scientific (n : Nat) (e : Int) :
    Binary32.decimalOfText?
        (scientific (Nat.toDigits 10 n) (e + (Nat.toDigits 10 n).length - 1)) = some ⟨n, e⟩ := by
  have hdigits := toDigits_isDigit n
  have hvalue := digitsValue_toDigits n
  have hne : Nat.toDigits 10 n ≠ [] := Nat.toDigits_ne_nil
  generalize Nat.toDigits 10 n = digits at *
  unfold scientific
  match digits with
  | [] => exact absurd rfl hne
  | [d] =>
    have hread := decimalOfText?_whole _ ('e' :: _) hdigits hne rfl (fun _ => nofun)
      (exponentOfText?_signed (e + [d].length - 1))
    rw [hvalue] at hread
    refine hread.trans ?_
    congr 2
    rw [List.length_singleton]
    omega
  | d :: c :: rest =>
    rw [List.all_cons, Bool.and_eq_true] at hdigits
    have hread := decimalOfText?_pointed [d] (c :: rest) ('e' :: _)
      (by rw [List.all_cons, hdigits.1]; rfl) (List.cons_ne_nil _ _) hdigits.2 rfl
      (exponentOfText?_signed (e + (d :: c :: rest).length - 1))
    rw [show [d] ++ c :: rest = d :: c :: rest from rfl, hvalue] at hread
    refine hread.trans ?_
    congr 2
    rw [List.length_cons (a := d)]
    omega

theorem decimalText_eq (style : Numeral) (d : Decimal) : ∃ full : Bool, style.decimalText d =
    if full then pointed style.keepsPoint (Nat.toDigits 10 d.digits)
      (d.exponent + (Nat.toDigits 10 d.digits).length - 1 + 1)
    else scientific (Nat.toDigits 10 d.digits)
      (d.exponent + (Nat.toDigits 10 d.digits).length - 1) :=
  ⟨_, rfl⟩

/-- **The text of a decimal writes a decimal of the same value**, in every style. -/
theorem decimalOfText?_decimalText (style : Numeral) (d : Decimal) : ∃ k : Nat,
    Binary32.decimalOfText? (style.decimalText d) = some ⟨d.digits * 10 ^ k, d.exponent - k⟩ := by
  obtain ⟨full, htext⟩ := style.decimalText_eq d
  rw [htext]
  split
  · rw [Int.sub_add_cancel]
    exact decimalOfText?_pointedDigits style.keepsPoint d.digits d.exponent
  · refine ⟨0, (decimalOfText?_scientific d.digits d.exponent).trans ?_⟩
    rw [Nat.pow_zero, Nat.mul_one]
    exact congrArg (fun e => some (Decimal.mk d.digits e)) (Int.sub_zero _).symm

theorem pointed_head (keepsPoint : Bool) (whole : Int) {c : Char} {cs : List Char}
    (hc : c.isDigit = true) :
    ∃ a rest, pointed keepsPoint (c :: cs) whole = a :: rest ∧ a.isDigit = true := by
  unfold pointed
  split
  · exact ⟨'0', _, rfl, rfl⟩
  · next hpos =>
    obtain ⟨k, hk⟩ : ∃ k, whole.natAbs = k + 1 := ⟨whole.natAbs - 1, by omega⟩
    rw [hk]
    split <;> exact ⟨c, _, rfl, hc⟩

/-- A decimal is written with a digit in front. -/
theorem decimalText_head (style : Numeral) (d : Decimal) :
    ∃ c rest, style.decimalText d = c :: rest ∧ c.isDigit = true := by
  obtain ⟨c, cs, hdigits⟩ := List.exists_cons_of_ne_nil (Nat.toDigits_ne_nil (n := d.digits) (b := 10))
  have hc : c.isDigit = true :=
    List.all_eq_true.1 (toDigits_isDigit d.digits) c (hdigits ▸ List.mem_cons_self)
  obtain ⟨full, htext⟩ := style.decimalText_eq d
  rw [htext, hdigits]
  split
  · exact pointed_head _ _ hc
  · cases cs <;> exact ⟨c, _, rfl, hc⟩

/-! ## The characters of a number -/

/-- A character of a number or of a word that stands for one. -/
def isMark (c : Char) : Bool := c.isAlphanum || c == '.' || c == '+' || c == '-'

theorem all_isMark {digits : List Char} (h : digits.all Char.isDigit = true) :
    digits.all isMark = true := by
  rw [List.all_eq_true] at h ⊢
  intro c hc
  rw [isMark, Char.isAlphanum, h c hc, Bool.or_true, Bool.true_or, Bool.true_or, Bool.true_or]

theorem pointed_isMark (keepsPoint : Bool) (whole : Int) {digits : List Char}
    (h : digits.all Char.isDigit = true) : (pointed keepsPoint digits whole).all isMark = true := by
  have hzeros := fun n => all_isMark (replicate_isDigit n)
  have hdigits := all_isMark h
  unfold pointed
  split
  · rw [List.all_cons, List.all_cons, List.all_append, hzeros, hdigits]
    rfl
  · split
    · rw [List.all_append, List.all_append, hzeros, hdigits]
      cases keepsPoint <;> rfl
    · rw [← List.take_append_drop whole.natAbs digits, List.all_append, Bool.and_eq_true] at hdigits
      rw [List.all_append, List.all_cons, hdigits.1, hdigits.2]
      rfl

theorem scientific_isMark (power : Int) {digits : List Char} (h : digits.all Char.isDigit = true) :
    (scientific digits power).all isMark = true := by
  have hdigits := all_isMark h
  have hpower : ('e' :: (if power < 0 then '-' else '+') ::
      Nat.toDigits 10 power.natAbs).all isMark = true := by
    rw [List.all_cons, List.all_cons, all_isMark (toDigits_isDigit power.natAbs)]
    split <;> rfl
  unfold scientific
  dsimp only
  rw [List.all_append, hpower, Bool.and_true]
  match digits with
  | [] => rfl
  | [_] => exact hdigits
  | d :: c :: rest =>
    rw [List.all_cons, Bool.and_eq_true] at hdigits
    exact List.all_cons.trans (Bool.and_eq_true_iff.2 ⟨hdigits.1, hdigits.2⟩)

theorem decimalText_isMark (style : Numeral) (d : Decimal) :
    (style.decimalText d).all isMark = true := by
  obtain ⟨full, htext⟩ := style.decimalText_eq d
  rw [htext]
  split
  · exact pointed_isMark _ _ (toDigits_isDigit _)
  · exact scientific_isMark _ (toDigits_isDigit _)

end Numeral

/-! ## Numbers -/

namespace Binary32

variable {x y : Binary32}

theorem ofMagnitude_magnitude (x : Binary32) : ofMagnitude x.isNegative x.magnitude = x := by
  obtain ⟨bits⟩ := x
  have hlt := bits.toNat_lt
  have hnegative : (Binary32.mk bits).isNegative = decide (0x80000000 ≤ bits.toNat) := rfl
  have hmagnitude : bits.toNat % 0x80000000 + (if 0x80000000 ≤ bits.toNat then 0x80000000 else 0)
      = bits.toNat := by
    split <;> omega
  rw [ofMagnitude, hnegative, magnitude]
  simp only [decide_eq_true_eq]
  rw [hmagnitude, UInt32.ofNat_toNat]

/-- A number is finite, or one of the two infinities. -/
theorem isFinite_or_eq (h : x.isNaN = false) :
    x.isFinite = true ∨ x = ofMagnitude x.isNegative infinite := by
  by_cases hfinite : x.isFinite = true
  · exact .inl hfinite
  · have hle := of_decide_eq_false h
    have hge := of_decide_eq_false (eq_false_of_ne_true hfinite)
    have hmagnitude : x.magnitude = infinite := by omega
    exact .inr (hmagnitude ▸ (ofMagnitude_magnitude x).symm)

/-- The text of a finite number is a sign and a decimal. -/
theorem text_of_isFinite (style : Numeral) (h : x.isFinite = true) : (x.text style).toList
    = (if x.isNegative then ['-'] else []) ++ style.decimalText (x.shortest style.tie) := by
  have hlt := magnitude_lt_of_isFinite h
  have hnan : x.isNaN = false := decide_eq_false (Nat.not_lt.2 (Nat.le_of_lt hlt))
  have hinfinite : x.isInfinite = false := beq_eq_false_iff_ne.2 (Nat.ne_of_lt hlt)
  rw [text, hnan, hinfinite]
  exact String.toList_ofList

/-- **The text of a finite number is read as the number.** -/
theorem ofText?_text (style : Numeral) (h : x.isFinite = true) :
    ofText? (x.text style).toList = some x := by
  obtain ⟨k, hread⟩ := style.decimalOfText?_decimalText (x.shortest style.tie)
  obtain ⟨c, rest, htext, hc⟩ := style.decimalText_head (x.shortest style.tie)
  have hnearest : (Decimal.mk ((x.shortest style.tie).digits * 10 ^ k)
      ((x.shortest style.tie).exponent - k)).nearest = x.magnitude :=
    (Decimal.nearest_scaled ..).trans (nearest_shortest style.tie h)
  have hx := ofMagnitude_magnitude x
  rw [htext] at hread
  rw [text_of_isFinite style h, htext]
  cases hsign : x.isNegative with
  | false =>
    rw [hsign] at hx
    rw [if_neg Bool.false_ne_true, List.nil_append, ofText?_of_isDigit hc, hread, Option.map_some,
      hnearest, hx]
  | true =>
    rw [hsign] at hx
    rw [if_pos rfl, List.singleton_append, ofText?, magnitudeOfText?_of_isDigit hc, hread,
      Option.map_some, Option.map_some, hnearest, hx]

/-- A number is written with the characters of numbers, if the words of the style are. -/
theorem text_isMark {style : Numeral} (hinfinity : style.infinity.toList.all Numeral.isMark = true)
    (hnegative : style.negativeInfinity.toList.all Numeral.isMark = true)
    (hnan : style.nan.toList.all Numeral.isMark = true) (x : Binary32) :
    (x.text style).toList.all Numeral.isMark = true := by
  unfold text
  split
  · exact hnan
  · split
    · split
      · exact hnegative
      · exact hinfinity
    · rw [String.toList_ofList, List.all_append, style.decimalText_isMark]
      cases x.isNegative <;> rfl

/-- Two finite numbers with one text are the same. -/
theorem text_inj (style : Numeral) (hx : x.isFinite = true) (hy : y.isFinite = true)
    (h : x.text style = y.text style) : x = y := by
  have hread := ofText?_text style hx
  rw [h, ofText?_text style hy] at hread
  exact (Option.some.inj hread).symm

end Binary32

end Chainlet
