import Mathlib.Data.Nat.Digits.Defs
import Chainlet.Program.Integer

/-!
# Proofs/Program/Integer — which integer literals have a value

`intValue?` reads digits from the left.  What it accepts is said here without the reading: an optional
plus sign, at least one character, every one of them a digit of the radix, and a value that fits in a
word (`intValue?_eq_some_iff`).
-/

namespace Chainlet

variable {radix n : Nat} {text : List Char}

/-- A text writes a number in a radix: behind an optional plus sign stand the digits of the number, the
most significant one first, and at least one of them. -/
def WritesNumber (radix : Nat) (text : List Char) (n : Nat) : Prop :=
  ∃ (sign digits : List Char) (values : List Nat), text = sign ++ digits ∧ (sign = [] ∨ sign = ['+']) ∧ digits ≠ [] ∧
    digits.map (digitValue? radix) = values.map some ∧ n = Nat.ofDigits radix values.reverse

/-- One more digit behind those read so far. -/
theorem ofDigits_reverse_cons (radix value d : Nat) (ds : List Nat) :
    Nat.ofDigits radix (ds.reverse ++ [value * radix + d])
      = Nat.ofDigits radix ((d :: ds).reverse ++ [value]) := by
  rw [List.reverse_cons, List.append_assoc, Nat.ofDigits_append, Nat.ofDigits_append]
  congr 2
  simp only [List.singleton_append, Nat.ofDigits_cons, Nat.ofDigits_nil]
  ring

/-- Digits behind a value are read off one by one, and the first character that is none ends it. -/
theorem digitsValueFrom?_eq_some_iff {value : Nat} :
    digitsValueFrom? radix value text = some n ↔ ∃ values : List Nat,
      text.map (digitValue? radix) = values.map some ∧
        n = Nat.ofDigits radix (values.reverse ++ [value]) := by
  induction text generalizing value with
  | nil =>
    rw [digitsValueFrom?, Option.some.injEq]
    constructor
    · rintro rfl
      exact ⟨[], rfl, Nat.ofDigits_singleton.symm⟩
    · rintro ⟨values, hvalues, rfl⟩
      obtain rfl : values = [] := List.map_eq_nil_iff.1 hvalues.symm
      exact Nat.ofDigits_singleton.symm
  | cons c cs ih =>
    rw [digitsValueFrom?]
    constructor
    · intro h
      obtain ⟨d, hd, h⟩ := Option.bind_eq_some_iff.1 h
      obtain ⟨ds, hds, rfl⟩ := ih.1 h
      refine ⟨d :: ds, ?_, ofDigits_reverse_cons radix value d ds⟩
      rw [List.map_cons, List.map_cons, hd, hds]
    · rintro ⟨values, hvalues, rfl⟩
      obtain ⟨d, ds, rfl, hd, hds⟩ := List.map_eq_cons_iff.1 hvalues.symm
      refine Option.bind_eq_some_iff.2 ⟨d, hd.symm, ih.2 ⟨ds, hds.symm, ?_⟩⟩
      exact (ofDigits_reverse_cons radix value d ds).symm

/-- A plus sign is a digit of no radix. -/
theorem digitValue?_plus (radix : Nat) : digitValue? radix '+' = none := rfl

/-- **What is read as a number writes that number.** -/
theorem natValue?_eq_some_iff : natValue? radix text = some n ↔ WritesNumber radix text n := by
  have hread : ∀ digits : List Char, (if digits.isEmpty then none else digitsValueFrom? radix 0 digits)
      = some n ↔ digits ≠ [] ∧ ∃ values : List Nat, digits.map (digitValue? radix) = values.map some ∧
        n = Nat.ofDigits radix values.reverse := by
    intro digits
    cases digits with
    | nil => simp
    | cons c cs =>
      have hzero : ∀ values : List Nat,
          Nat.ofDigits radix (values ++ [0]) = Nat.ofDigits radix values := by
        intro values
        rw [Nat.ofDigits_append, Nat.ofDigits_singleton, Nat.mul_zero, Nat.add_zero]
      rw [List.isEmpty_cons, if_neg Bool.false_ne_true, digitsValueFrom?_eq_some_iff]
      simp only [hzero, ne_eq, reduceCtorEq, not_false_eq_true, true_and]
  unfold natValue?
  split
  · next digits =>
    rw [hread]
    constructor
    · rintro ⟨hne, values, hvalues, rfl⟩
      exact ⟨['+'], digits, values, rfl, .inr rfl, hne, hvalues, rfl⟩
    · rintro ⟨sign, digits', values, htext, rfl | rfl, hne, hvalues, rfl⟩
      · rw [List.nil_append] at htext
        subst htext
        rw [List.map_cons, digitValue?_plus] at hvalues
        obtain ⟨v, vs, rfl, hv, -⟩ := List.map_eq_cons_iff.1 hvalues.symm
        cases hv
      · cases htext
        exact ⟨hne, values, hvalues, rfl⟩
  · next hplus =>
    rw [hread]
    constructor
    · rintro ⟨hne, values, hvalues, rfl⟩
      exact ⟨[], text, values, rfl, .inl rfl, hne, hvalues, rfl⟩
    · rintro ⟨sign, digits, values, htext, rfl | rfl, hne, hvalues, rfl⟩
      · cases htext
        exact ⟨hne, values, hvalues, rfl⟩
      · exact absurd htext (hplus digits)

/-- **The integer literals with a value:** without the mark of their base and the underscores they
write a number that fits in a word. -/
theorem intValue?_eq_some_iff {base : Base} {text : String} {value : UInt32} :
    intValue? base text = some value ↔ ∃ n,
      WritesNumber base.radix ((base.digits text).toList.filter (· != '_')) n ∧ n < UInt32.size ∧
        value = UInt32.ofNat n := by
  rw [intValue?, Option.bind_eq_bind, Option.bind_eq_some_iff]
  constructor
  · rintro ⟨n, hn, hword⟩
    unfold word? at hword
    split at hword
    · next hlt =>
      cases hword
      exact ⟨n, natValue?_eq_some_iff.1 hn, hlt, rfl⟩
    · cases hword
  · rintro ⟨n, hn, hlt, rfl⟩
    exact ⟨n, natValue?_eq_some_iff.2 hn, if_pos hlt⟩

end Chainlet
