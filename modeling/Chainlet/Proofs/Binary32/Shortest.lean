import Mathlib.Algebra.Group.Nat.Defs
import Chainlet.Binary32.Shortest

/-!
# Proofs/Binary32/Shortest — the shortest decimal rounds to its number

Rounding sees the value of a decimal and not the way in which it is written (`Decimal.nearest_scaled`),
and a number written out exactly is rounded to itself (`Binary32.nearest_exact`).  So **the shortest
decimal of a finite number is rounded to that number**, whichever tie it was chosen with
(`Binary32.nearest_shortest`).
-/

namespace Chainlet

/-! ## Rounding a fraction -/

namespace Binary32

theorem roundToEven_mul {k : Nat} (hk : 0 < k) (a b : Nat) :
    roundToEven (k * a) (k * b) = roundToEven a b := by
  have hlt : ∀ x y : Nat, 2 * (k * x) < k * y ↔ 2 * x < y := fun x y => by
    rw [Nat.mul_left_comm]
    exact Nat.mul_lt_mul_left hk
  have hlt' : ∀ x y : Nat, k * y < 2 * (k * x) ↔ y < 2 * x := fun x y => by
    rw [Nat.mul_left_comm 2]
    exact Nat.mul_lt_mul_left hk
  simp only [roundToEven, Nat.mul_div_mul_left _ _ hk, Nat.mul_mod_mul_left, hlt, hlt']

theorem roundToEven_mul_self (n : Nat) {d : Nat} (hd : 0 < d) : roundToEven (d * n) d = n := by
  simp only [roundToEven, Nat.mul_mod_right, Nat.mul_div_cancel_left n hd, Nat.mul_zero, hd, if_true]

/-- A fraction is rounded as it is in lowest terms. -/
theorem nearestMagnitude_mul {k : Nat} (hk : 0 < k) (a b : Nat) :
    nearestMagnitude (k * a) (k * b) = nearestMagnitude a b := by
  simp only [nearestMagnitude, Nat.shiftLeft_eq, Nat.mul_assoc k, Nat.mul_div_mul_left _ _ hk,
    roundToEven_mul hk]

/-! ## Numbers that are exact -/

variable {x : Binary32}

theorem magnitude_lt_of_isFinite (h : x.isFinite = true) : x.magnitude < infinite :=
  of_decide_eq_true h

/-- The units of a number, by the exponent and the fraction that its magnitude is made of. -/
theorem units_eq (x : Binary32) : x.units = if x.magnitude / 2 ^ 23 = 0 then x.magnitude % 2 ^ 23
    else (x.magnitude % 2 ^ 23 + 2 ^ 23) * 2 ^ (x.magnitude / 2 ^ 23 - 1) := by
  rw [← Nat.shiftRight_eq_div_pow, ← Nat.shiftLeft_eq]
  rfl

theorem units_eq_zero (h : x.units = 0) : x.magnitude = 0 := by
  rw [units_eq] at h
  split at h
  · omega
  · have hpow := Nat.two_pow_pos (x.magnitude / 2 ^ 23 - 1)
    obtain h | h := Nat.mul_eq_zero.1 h
    · omega
    · omega

/-- The units of a finite number are fewer than those of `2 ^ 128`. -/
theorem units_lt (h : x.isFinite = true) : x.units < 2 ^ 24 * 2 ^ 253 := by
  have hfinite := magnitude_lt_of_isFinite h
  have hexponent : x.magnitude / 2 ^ 23 - 1 ≤ 253 := by
    rw [infinite] at hfinite
    omega
  have hfraction : x.magnitude % 2 ^ 23 + 2 ^ 23 < 2 ^ 24 := by omega
  rw [units_eq]
  split
  · exact Nat.lt_trans (Nat.mod_lt _ (by decide)) (by decide)
  · calc (x.magnitude % 2 ^ 23 + 2 ^ 23) * 2 ^ (x.magnitude / 2 ^ 23 - 1)
        ≤ (x.magnitude % 2 ^ 23 + 2 ^ 23) * 2 ^ 253 :=
          Nat.mul_le_mul_left _ (Nat.pow_le_pow_right (by decide) hexponent)
      _ < 2 ^ 24 * 2 ^ 253 := Nat.mul_lt_mul_of_pos_right hfraction (by decide)

/-- Rounding to multiples of `2 ^ -149` and to twenty-four bits. -/
theorem nearestMagnitude_two_pow (u : Nat) : nearestMagnitude u (2 ^ 149)
    = min ((u.log2 - 23) * 2 ^ 23 + roundToEven u (2 ^ (u.log2 - 23))) infinite := by
  have hscale : u * 2 ^ 149 = 2 ^ 149 * u := Nat.mul_comm ..
  simp only [nearestMagnitude, Nat.shiftLeft_eq]
  rw [hscale, Nat.mul_div_cancel_left _ (Nat.two_pow_pos 149), roundToEven_mul (Nat.two_pow_pos 149)]

/-- **A finite number is the nearest one to itself.** -/
theorem nearestMagnitude_units (h : x.isFinite = true) :
    nearestMagnitude x.units (2 ^ 149) = x.magnitude := by
  have hfinite := magnitude_lt_of_isFinite h
  have hmagnitude : x.magnitude = x.magnitude / 2 ^ 23 * 2 ^ 23 + x.magnitude % 2 ^ 23 := by omega
  rw [nearestMagnitude_two_pow, units_eq]
  generalize hfraction : x.magnitude % 2 ^ 23 = fraction at *
  have hlt : fraction < 2 ^ 23 := hfraction ▸ Nat.mod_lt _ (by decide)
  split
  · next hexponent =>
    -- a small number has its units for its magnitude
    have hlog : fraction.log2 - 23 = 0 := by
      by_cases hzero : fraction = 0
      · rw [hzero]
        rfl
      · have := (Nat.log2_lt hzero).2 hlt
        omega
    have hround := roundToEven_mul_self fraction Nat.one_pos
    rw [Nat.one_mul] at hround
    rw [hlog, Nat.pow_zero, hround]
    omega
  · next hexponent =>
    obtain ⟨e, he⟩ := Nat.exists_eq_succ_of_ne_zero hexponent
    rw [he, Nat.succ_sub_one]
    have hlog : ((fraction + 2 ^ 23) * 2 ^ e).log2 = e + 23 := by
      have hpow := Nat.two_pow_pos e
      refine (Nat.log2_eq_iff (Nat.mul_ne_zero (by omega) (by omega))).2 ⟨?_, ?_⟩
      · rw [Nat.pow_add, Nat.mul_comm]
        exact Nat.mul_le_mul_right _ (by omega)
      · rw [Nat.add_assoc, Nat.pow_add, Nat.mul_comm]
        exact Nat.mul_lt_mul_of_pos_left (by omega) hpow
    rw [hlog, Nat.add_sub_cancel, Nat.mul_comm (fraction + 2 ^ 23),
      roundToEven_mul_self _ (Nat.two_pow_pos e)]
    rw [he] at hmagnitude
    omega

end Binary32

/-! ## Decimals of one value -/

namespace Decimal

theorem width_le_iff {n k : Nat} (hk : 0 < k) : width n ≤ k ↔ n < 10 ^ k :=
  Nat.length_toDigits_le_iff (by decide) hk

theorem width_mul_ten {n : Nat} (hn : n ≠ 0) : width (n * 10) = width n + 1 := by
  rw [width, Nat.toDigits_of_base_le (by decide) (by omega), Nat.mul_div_cancel _ (by decide),
    List.length_append, width]
  rfl

theorem ratio_eq (n : Nat) (e : Int) :
    ratio ⟨n, e⟩ = if e < 0 then (n, 10 ^ e.natAbs) else (n * 10 ^ e.natAbs, 1) := rfl

/-- A zero more behind the digits makes another fraction of the same value. -/
theorem ratio_ten (n : Nat) (e : Int) : ∃ k, 0 < k ∧
    ratio ⟨n * 10, e - 1⟩ = (k * (ratio ⟨n, e⟩).1, k * (ratio ⟨n, e⟩).2) := by
  rw [ratio_eq, ratio_eq]
  obtain he | he | he : e < 0 ∨ e = 0 ∨ 0 < e := by omega
  · refine ⟨10, by decide, ?_⟩
    rw [if_pos (by omega), if_pos he, show (e - 1).natAbs = e.natAbs + 1 by omega, Nat.pow_succ',
      Nat.mul_comm n]
  · subst he
    refine ⟨10, by decide, ?_⟩
    rw [if_pos (by decide), if_neg (by decide), Nat.mul_comm n]
    simp
  · refine ⟨1, by decide, ?_⟩
    rw [if_neg (by omega), if_neg (by omega), show e.natAbs = (e - 1).natAbs + 1 by omega,
      Nat.pow_succ', Nat.one_mul, Nat.one_mul, Nat.mul_assoc]

/-- A zero more behind the digits and one off the exponent make no difference. -/
theorem nearest_ten (n : Nat) (e : Int) : nearest ⟨n * 10, e - 1⟩ = nearest ⟨n, e⟩ := by
  by_cases hn : n = 0
  · subst hn
    rfl
  have htop : e - 1 + (width (n * 10) : Int) = e + width n := by
    rw [width_mul_ten hn]
    push_cast
    omega
  obtain ⟨k, hk, hratio⟩ := ratio_ten n e
  rw [nearest, nearest, hratio, Binary32.nearestMagnitude_mul hk]
  dsimp only
  rw [htop, if_neg hn, if_neg (by omega)]

/-- A decimal is rounded to infinity at most. -/
theorem nearest_le (d : Decimal) : d.nearest ≤ Binary32.infinite := by
  unfold nearest
  split
  · exact Nat.zero_le _
  · dsimp only
    split
    · exact Nat.le_refl _
    · split
      · exact Nat.zero_le _
      · exact Nat.min_le_right ..

/-- **Rounding sees the value of a decimal**, however many zeros stand behind its digits. -/
theorem nearest_scaled (n k : Nat) (e : Int) : nearest ⟨n * 10 ^ k, e - k⟩ = nearest ⟨n, e⟩ := by
  induction k with
  | zero => simp
  | succ k ih =>
    rw [← ih, ← nearest_ten (n * 10 ^ k), Nat.pow_succ, Nat.mul_assoc]
    push_cast
    rw [Int.sub_sub]

end Decimal

namespace Binary32

variable {x : Binary32}

/-- **A number written out exactly is rounded to itself.** -/
theorem nearest_exact (h : x.isFinite = true) (hne : x.units ≠ 0) :
    Decimal.nearest ⟨x.units * Nat.pow 5 149, -149⟩ = x.magnitude := by
  have hpow : Nat.pow 5 149 = 5 ^ 149 := rfl
  have hwidth : Decimal.width (x.units * 5 ^ 149) ≤ 188 := by
    refine (Decimal.width_le_iff (by decide)).2 ?_
    calc x.units * 5 ^ 149 < 2 ^ 24 * 2 ^ 253 * 5 ^ 149 := Nat.mul_lt_mul_of_pos_right (units_lt h) (by decide)
      _ ≤ 10 ^ 188 := by decide
  have hwidth' : ¬Decimal.width (x.units * 5 ^ 149) ≤ 103 := by
    rw [Decimal.width_le_iff (by decide), Nat.not_lt]
    calc 10 ^ 103 ≤ 1 * 5 ^ 149 := by decide
      _ ≤ x.units * 5 ^ 149 := Nat.mul_le_mul_right _ (Nat.pos_of_ne_zero hne)
  have hratio : nearestMagnitude (x.units * 5 ^ 149) (10 ^ 149) = x.magnitude := by
    rw [Nat.mul_comm, show (10 : Nat) = 5 * 2 from rfl, Nat.mul_pow,
      nearestMagnitude_mul (Nat.pow_pos (by decide)), nearestMagnitude_units h]
  have hdigits : x.units * 5 ^ 149 ≠ 0 := Nat.mul_ne_zero hne (by decide)
  rw [hpow]
  generalize x.units * 5 ^ 149 = digits at *
  rw [Decimal.nearest, Decimal.ratio_eq, if_neg hdigits]
  dsimp only
  rw [if_neg (by omega), if_neg (by omega), if_pos (by decide)]
  exact hratio

theorem nearest_of_readBack? {tie : Tie} {magnitude : Nat} {n : Neighbours} {d : Decimal}
    (h : readBack? tie magnitude n = some d) : d.nearest = magnitude := by
  unfold readBack? at h
  split at h
  · cases h
  · next hlower _ => cases h; exact beq_iff_eq.1 hlower
  · next _ hupper => cases h; exact beq_iff_eq.1 hupper
  · next hlower hupper =>
    rw [beq_iff_eq] at hlower hupper
    split at h <;> cases h
    · exact hlower
    · exact hupper
    · exact hupper
    · split
      · exact hlower
      · exact hupper

/-- **The shortest decimal of a finite number is rounded to it.** -/
theorem nearest_shortest (tie : Tie) (h : x.isFinite = true) :
    (x.shortest tie).nearest = x.magnitude := by
  unfold shortest
  split
  · next hzero => exact (units_eq_zero hzero).symm
  · next hne =>
    cases hfind : [1, 2, 3, 4, 5, 6, 7, 8, 9].findSome? fun count =>
        readBack? tie x.magnitude (neighbours x.units count) with
    | none => exact nearest_exact h hne
    | some d =>
      obtain ⟨count, -, hread⟩ := List.exists_of_findSome?_eq_some hfind
      exact nearest_of_readBack? hread

end Binary32

end Chainlet
