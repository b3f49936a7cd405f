import Chainlet.Proofs.Program.Integer
import Chainlet.Proofs.Spelling.Word

/-!
# Proofs/Spelling/Digits — the numbers that words spell

`Base.SpellsNumber` says which words spell a number in a base, and says it of the digits alone: with
`Nat.digitChar`, lower case and positional value.  The words of the form of a base are those that spell
some number in it (`Base.form_iff`), and the value of an integer literal is the number it spells, if that
fits in a word (`Base.SpellsNumber.intValue?_eq`).
-/

namespace Chainlet

/-! ## Characters as numbers -/

theorem isDigit_iff_toNat {c : Char} : c.isDigit = true ↔ 48 ≤ c.toNat ∧ c.toNat ≤ 57 := by
  simp only [Char.isDigit, Bool.and_eq_true, decide_eq_true_eq, UInt32.le_iff_toNat_le]
  rfl

theorem isLower_iff_toNat {c : Char} : c.isLower = true ↔ 97 ≤ c.toNat ∧ c.toNat ≤ 122 := by
  change (decide ('a'.val ≤ c.val) && decide (c.val ≤ 'z'.val)) = true ↔ _
  simp only [Bool.and_eq_true, decide_eq_true_eq, UInt32.le_iff_toNat_le]
  rfl

theorem isUpper_iff_toNat {c : Char} : c.isUpper = true ↔ 65 ≤ c.toNat ∧ c.toNat ≤ 90 := by
  change decide ('A'.val ≤ c.val ∧ c.val ≤ 'Z'.val) = true ↔ _
  simp only [decide_eq_true_eq, UInt32.le_iff_toNat_le]
  rfl

theorem toNat_toLower (c : Char) :
    c.toLower.toNat = if 65 ≤ c.toNat ∧ c.toNat ≤ 90 then c.toNat + 32 else c.toNat := by
  have hrange : (c.val ≥ 'A'.val ∧ c.val ≤ 'Z'.val) ↔ 65 ≤ c.toNat ∧ c.toNat ≤ 90 := by
    simp only [ge_iff_le, UInt32.le_iff_toNat_le]
    rfl
  unfold Char.toLower
  split
  · next h =>
    have hupper := hrange.1 h
    rw [if_pos hupper]
    change (c.val + 32).toNat = c.toNat + 32
    rw [UInt32.toNat_add]
    exact Nat.mod_eq_of_lt (Nat.lt_of_le_of_lt (Nat.add_le_add_right hupper.2 32) (by decide))
  · next h => rw [if_neg (mt hrange.2 h)]

theorem toNat_digitChar : ∀ v < 16, (Nat.digitChar v).toNat = if v < 10 then v + 48 else v + 87 := by
  decide

/-! ## Digits -/

variable {radix n v : Nat} {c : Char}

/-- The value of a digit by its place in the tables of characters. -/
theorem digitValue?_iff_toNat : digitValue? radix c = some v ↔ v < radix ∧
    (48 ≤ c.toNat ∧ c.toNat ≤ 57 ∧ v + 48 = c.toNat ∨
      97 ≤ c.toNat ∧ c.toNat ≤ 122 ∧ v + 87 = c.toNat ∨
      65 ≤ c.toNat ∧ c.toNat ≤ 90 ∧ v + 55 = c.toNat) := by
  rw [digitValue?, Option.filter_eq_some_iff, decide_eq_true_eq, and_comm]
  refine and_congr_right fun _ => ?_
  simp only [isDigit_iff_toNat, isLower_iff_toNat, isUpper_iff_toNat]
  split_ifs
  all_goals simp
  all_goals omega

/-- **A digit stands for the number that it is the digit of**, in lower case. -/
theorem digitValue?_eq_some_iff (h : radix ≤ 16) :
    digitValue? radix c = some v ↔ v < radix ∧ c.toLower = v.digitChar := by
  rw [digitValue?_iff_toNat]
  refine and_congr_right fun hv => ?_
  rw [← Char.toNat_inj, toNat_toLower, toNat_digitChar v (Nat.lt_of_lt_of_le hv h)]
  split_ifs <;> omega

/-- Digits have values if and only if, in lower case, they are the digits of those. -/
theorem map_digitValue?_eq_iff (h : radix ≤ 16) {digits : List Char} {values : List Nat} :
    digits.map (digitValue? radix) = values.map some ↔
      digits.map Char.toLower = values.map Nat.digitChar ∧ ∀ v ∈ values, v < radix := by
  induction digits generalizing values with
  | nil =>
    rw [List.map_nil, List.map_nil, List.nil_eq, List.nil_eq, List.map_eq_nil_iff, List.map_eq_nil_iff]
    refine ⟨fun hvalues => ⟨hvalues, ?_⟩, And.left⟩
    rw [hvalues]
    exact List.forall_mem_nil _
  | cons c digits ih =>
    cases values with
    | nil => simp
    | cons v values =>
      simp only [List.map_cons, List.cons.injEq, List.forall_mem_cons, ih, digitValue?_eq_some_iff h]
      tauto

theorem exists_values {digits : List Char} (h : ∀ c ∈ digits, ∃ v, digitValue? radix c = some v) :
    ∃ values : List Nat, digits.map (digitValue? radix) = values.map some := by
  induction digits with
  | nil => exact ⟨[], rfl⟩
  | cons c digits ih =>
    rw [List.forall_mem_cons] at h
    obtain ⟨v, hv⟩ := h.1
    obtain ⟨values, hvalues⟩ := ih h.2
    exact ⟨v :: values, by rw [List.map_cons, List.map_cons, hv, hvalues]⟩

/-! ## Bases -/

/-- The digits of a base. -/
def Base.isDigit : Base → Char → Bool
  | decimal => Char.isDigit
  | binary => isBinaryDigit
  | hexadecimal => isHexDigit
  | octal => isOctalDigit

namespace Base

theorem radix_le (b : Base) : b.radix ≤ 16 := by
  cases b <;> decide

theorem isDigit_underscore (b : Base) : b.isDigit '_' = false := by
  cases b <;> rfl

/-- **The digits that the grammar allows in a base are those that have a value in it.** -/
theorem isDigit_iff (b : Base) (c : Char) : b.isDigit c = true ↔ ∃ v, digitValue? b.radix c = some v := by
  have hchar : ∀ d : Char, c = d ↔ c.toNat = d.toNat := fun d => Char.toNat_inj.symm
  have hle : ∀ d e : Char, (d ≤ e) ↔ d.toNat ≤ e.toNat := fun d e => Iff.rfl
  simp only [digitValue?_iff_toNat]
  cases b with
  | decimal =>
    rw [isDigit, isDigit_iff_toNat, radix]
    exact ⟨fun h => ⟨c.toNat - 48, by omega⟩, fun h => by obtain ⟨v, hv⟩ := h; omega⟩
  | binary =>
    rw [isDigit, isBinaryDigit, Bool.or_eq_true, beq_iff_eq, beq_iff_eq, hchar, hchar, radix]
    change c.toNat = 48 ∨ c.toNat = 49 ↔ _
    exact ⟨fun h => ⟨c.toNat - 48, by omega⟩, fun h => by obtain ⟨v, hv⟩ := h; omega⟩
  | hexadecimal =>
    simp only [isDigit, isHexDigit, Bool.or_eq_true, Bool.and_eq_true, decide_eq_true_eq,
      isDigit_iff_toNat, hle, radix]
    change (48 ≤ c.toNat ∧ c.toNat ≤ 57 ∨ 97 ≤ c.toNat ∧ c.toNat ≤ 102) ∨
      65 ≤ c.toNat ∧ c.toNat ≤ 70 ↔ _
    refine ⟨fun h => ?_, fun h => by obtain ⟨v, hv⟩ := h; omega⟩
    obtain (h | h) | h := h
    · exact ⟨c.toNat - 48, by omega⟩
    · exact ⟨c.toNat - 87, by omega⟩
    · exact ⟨c.toNat - 55, by omega⟩
  | octal =>
    simp only [isDigit, isOctalDigit, Bool.and_eq_true, decide_eq_true_eq, hle, radix]
    change 48 ≤ c.toNat ∧ c.toNat ≤ 55 ↔ _
    exact ⟨fun h => ⟨c.toNat - 48, by omega⟩, fun h => by obtain ⟨v, hv⟩ := h; omega⟩

theorem form_eq (b : Base) (word : List Char) :
    b.form word = Form.based b.mark.toList b.isDigit word := by
  cases b <;> rfl

end Base

/-! ## Words -/

/-- **A word spells a number in a base**: behind the mark of the base stand the digits of the number, the
most significant one first and letters in either case, with any underscores but in front of the first. -/
def Base.SpellsNumber (b : Base) (word : Word) (n : Nat) : Prop :=
  ∃ (digits : List Char) (values : List Nat), word = b.mark.toList ++ digits ∧
    digits.head? ≠ some '_' ∧ (digits.filter (· != '_')).map Char.toLower = values.map Nat.digitChar ∧
    values ≠ [] ∧ (∀ v ∈ values, v < b.radix) ∧ n = Nat.ofDigits b.radix values.reverse

/-- Digits with underscores are digits once the underscores are left out, if a digit is the first. -/
theorem Form.digits_iff {isDigit : Char → Bool} (hunderscore : isDigit '_' = false) {word : List Char} :
    digits isDigit word = true ↔ word.head? ≠ some '_' ∧ word.filter (· != '_') ≠ [] ∧
      ∀ c ∈ word.filter (· != '_'), isDigit c = true := by
  cases word with
  | nil => simp [digits]
  | cons c cs =>
    rw [digits, Bool.and_eq_true, List.all_eq_true, List.head?_cons, ne_eq, Option.some.injEq]
    constructor
    · rintro ⟨hc, hcs⟩
      have hne : c ≠ '_' := by
        rintro rfl
        rw [hunderscore] at hc
        cases hc
      refine ⟨hne, ?_, fun d hd => ?_⟩
      · exact List.ne_nil_of_mem (List.mem_filter.2 ⟨List.mem_cons_self, bne_iff_ne.2 hne⟩)
      · obtain ⟨hd, hkept⟩ := List.mem_filter.1 hd
        obtain rfl | hd := List.mem_cons.1 hd
        · exact hc
        · have hdigit := hcs d hd
          rw [Bool.or_eq_true, beq_iff_eq] at hdigit
          exact hdigit.resolve_right (bne_iff_ne.1 hkept)
    · rintro ⟨hne, -, hall⟩
      refine ⟨hall c (List.mem_filter.2 ⟨List.mem_cons_self, bne_iff_ne.2 hne⟩), fun d hd => ?_⟩
      rw [Bool.or_eq_true, beq_iff_eq, or_iff_not_imp_right]
      exact fun hkept => hall d (List.mem_filter.2 ⟨List.mem_cons_of_mem c hd, bne_iff_ne.2 hkept⟩)

namespace Base

variable {b : Base} {word : Word} {n : Nat}

theorem form_iff_digits : b.form word = true ↔ ∃ digits, word = b.mark.toList ++ digits ∧
    Form.digits b.isDigit digits = true := by
  rw [form_eq, Form.based, Bool.and_eq_true, List.isPrefixOf_iff_prefix]
  constructor
  · rintro ⟨⟨digits, rfl⟩, hdigits⟩
    rw [List.drop_left] at hdigits
    exact ⟨digits, rfl, hdigits⟩
  · rintro ⟨digits, rfl, hdigits⟩
    rw [List.drop_left]
    exact ⟨⟨digits, rfl⟩, hdigits⟩

/-- **The words of the form of a base are those that spell a number in it.** -/
theorem form_iff : b.form word = true ↔ ∃ n, b.SpellsNumber word n := by
  rw [form_iff_digits]
  constructor
  · rintro ⟨digits, rfl, hdigits⟩
    obtain ⟨hhead, hne, hall⟩ := (Form.digits_iff b.isDigit_underscore).1 hdigits
    obtain ⟨values, hvalues⟩ := exists_values fun c hc => (b.isDigit_iff c).1 (hall c hc)
    obtain ⟨hlower, hlt⟩ := (map_digitValue?_eq_iff b.radix_le).1 hvalues
    refine ⟨_, digits, values, rfl, hhead, hlower, ?_, hlt, rfl⟩
    rintro rfl
    exact hne (List.map_eq_nil_iff.1 hvalues)
  · rintro ⟨n, digits, values, rfl, hhead, hlower, hne, hlt, -⟩
    have hvalues := (map_digitValue?_eq_iff b.radix_le).2 ⟨hlower, hlt⟩
    refine ⟨digits, rfl, (Form.digits_iff b.isDigit_underscore).2 ⟨hhead, ?_, fun c hc => ?_⟩⟩
    · intro hnil
      rw [hnil, List.map_nil] at hvalues
      exact hne (List.map_eq_nil_iff.1 hvalues.symm)
    · have hmem : digitValue? b.radix c ∈ values.map some := hvalues ▸ List.mem_map_of_mem hc
      obtain ⟨v, -, hv⟩ := List.mem_map.1 hmem
      exact (b.isDigit_iff c).2 ⟨v, hv.symm⟩

/-- Underscores and the mark left out, a word that spells a number writes it. -/
theorem SpellsNumber.writes {text : String} (h : b.SpellsNumber text.toList n) :
    WritesNumber b.radix ((b.digits text).toList.filter (· != '_')) n := by
  obtain ⟨digits, values, htext, -, hlower, hne, hlt, rfl⟩ := h
  have hdigits : (b.digits text).toList = digits := by
    rw [Base.digits, htext, if_pos (List.isPrefixOf_iff_prefix.2 ⟨digits, rfl⟩), String.toList_ofList,
      List.drop_left]
  have hvalues := (map_digitValue?_eq_iff b.radix_le).2 ⟨hlower, hlt⟩
  rw [hdigits]
  refine ⟨[], _, values, rfl, .inl rfl, fun hnil => hne ?_, hvalues, rfl⟩
  rw [hnil, List.map_nil] at hvalues
  exact List.map_eq_nil_iff.1 hvalues.symm

/-- A word spells one number in a base. -/
theorem SpellsNumber.unique {text : String} {m : Nat} (h : b.SpellsNumber text.toList n)
    (h' : b.SpellsNumber text.toList m) : m = n :=
  Option.some.inj ((natValue?_eq_some_iff.2 h'.writes).symm.trans (natValue?_eq_some_iff.2 h.writes))

/-- **The value of an integer literal is the number that it spells**, if that fits in a word. -/
theorem SpellsNumber.intValue?_eq {text : String} (h : b.SpellsNumber text.toList n) :
    intValue? b text = word? n := by
  rw [intValue?, natValue?_eq_some_iff.2 h.writes]
  rfl

end Base

end Chainlet
