import Mathlib
import Chainlet.Module.OfProgram

/-!
# Proofs/Code/Fresh — the search for a name that is not taken

`numbered base k` is the name in hand after `k` turns of a search, and `NameSearch.Turns` says which turns a
search takes: one more as long as the name in hand is taken.  The number behind a name is a word, so after
`2 ^ 32` numbers the names come again (`numbered_add_period`), and before that they are all different
(`numbered_inj`).  So

* a search ends if and only if one of the first `2 ^ 32 + 1` names is free (`NameSearch.ends_iff`), and it
  does where at most `2 ^ 32` names are taken (`NameSearch.ends_of_length_le`);
* it takes no more turns than there are names taken (`NameSearch.Turns.le_length`), and ends with `freshName`
  (`NameSearch.Turns.freshName_eq`), a name that is not taken (`freshName_not_mem`).
-/

namespace Chainlet

variable {base : String} {taken : List String} {k l n : Nat}

/-! ## Numbered names -/

/-- The name in hand after a number of turns: the base, and then the base with a number behind it. -/
def numbered (base : String) : Nat → String
  | 0 => base
  | k + 1 => base ++ toString (Int32.ofNat (k + 1))

theorem numbered_of_pos (hk : 1 ≤ k) : numbered base k = base ++ toString (Int32.ofNat k) := by
  obtain ⟨k, rfl⟩ := Nat.exists_eq_add_of_le' hk
  rfl

/-- The text of a word is that of its value. -/
theorem toString_word (w : Int32) : toString w = w.toInt.repr := rfl

/-- As long as the numbers have 31 bits they are written as what they count. -/
theorem toString_ofNat_of_lt (hk : k < 2 ^ 31) : toString (Int32.ofNat k) = toString k := by
  rw [toString_word, Int32.toInt_ofNat_of_lt hk]
  rfl

/-- A number behind a name is never empty. -/
theorem append_word_ne (w : Int32) : base ++ toString w ≠ base := by
  intro h
  rw [String.append_eq_left_iff, toString_word, Int.repr_eq_if] at h
  split at h
  · exact Nat.repr_ne_empty h
  · exact absurd (String.append_eq_empty_iff.1 h).1 (by decide)

/-- A name with a word behind it is told apart by the word. -/
theorem append_word_inj {v w : Int32} : base ++ toString v = base ++ toString w ↔ v = w := by
  rw [String.append_right_inj, toString_word, toString_word, Int.repr_inj, Int32.toInt_inj]

/-- A name with a number behind it is told apart by the number. -/
theorem append_toString_inj : base ++ toString k = base ++ toString l ↔ k = l := by
  rw [String.append_right_inj, Nat.toString_eq_repr, Nat.toString_eq_repr, Nat.repr_inj]

/-- Two counts are one word if they leave the same remainder. -/
theorem word_ofNat_eq_iff : Int32.ofNat k = Int32.ofNat l ↔ k % 2 ^ 32 = l % 2 ^ 32 := by
  rw [← Int32.toBitVec_inj, Int32.toBitVec_ofNat', Int32.toBitVec_ofNat', ← BitVec.toNat_inj,
    BitVec.toNat_ofNat, BitVec.toNat_ofNat]

/-- **Up to `2 ^ 32` turns all names are different.** -/
theorem numbered_inj (hk : k ≤ 2 ^ 32) (hl : l ≤ 2 ^ 32) (h : numbered base k = numbered base l) :
    k = l := by
  obtain rfl | hkpos := Nat.eq_zero_or_pos k <;> obtain rfl | hlpos := Nat.eq_zero_or_pos l
  · rfl
  · rw [numbered_of_pos hlpos] at h
    exact absurd h.symm (append_word_ne _)
  · rw [numbered_of_pos hkpos] at h
    exact absurd h (append_word_ne _)
  · rw [numbered_of_pos hkpos, numbered_of_pos hlpos, append_word_inj, word_ofNat_eq_iff] at h
    omega

/-- Behind the last number the names come again. -/
theorem numbered_add_period (hk : 1 ≤ k) : numbered base (k + 2 ^ 32) = numbered base k := by
  rw [numbered_of_pos hk, numbered_of_pos (Nat.le_add_right_of_le hk), append_word_inj,
    word_ofNat_eq_iff, Nat.add_mod_right]

/-- **Different names that are all taken are no more than the names taken.** -/
theorem le_length_of_injOn {name : Nat → String} (hinj : Set.InjOn name {j | j < k})
    (h : ∀ j < k, name j ∈ taken) : k ≤ taken.length := by
  have hnodup : ((List.range k).map name).Nodup :=
    List.Nodup.map_on (fun i hi j hj => hinj (List.mem_range.1 hi) (List.mem_range.1 hj))
      List.nodup_range
  have hsubset : (List.range k).map name ⊆ taken := by
    intro n hmem
    obtain ⟨j, hj, rfl⟩ := List.mem_map.1 hmem
    exact h j (List.mem_range.1 hj)
  simpa using (hnodup.subperm hsubset).length_le

/-- Numbered names that are all taken are no more than the names taken. -/
theorem le_length_of_taken (hk : k ≤ 2 ^ 32 + 1) (h : ∀ j < k, numbered base j ∈ taken) :
    k ≤ taken.length := by
  refine le_length_of_injOn (fun i hi j hj => numbered_inj ?_ ?_) h
  · exact Nat.lt_succ_iff.1 (Nat.lt_of_lt_of_le hi hk)
  · exact Nat.lt_succ_iff.1 (Nat.lt_of_lt_of_le hj hk)

/-! ## The search -/

namespace NameSearch

/-- Where a search is after a number of turns.  It takes another turn as long as the name in hand is
taken. -/
inductive Turns (base : String) (taken : List String) : Nat → NameSearch → Prop where
  | start : Turns base taken 0 (.start base)
  | next {n : Nat} {s : NameSearch} (h : Turns base taken n s) (htaken : s.name ∈ taken) :
      Turns base taken (n + 1) (s.next base)

/-- A search ends where it has a name in hand that is free. -/
def Ends (base : String) (taken : List String) : Prop :=
  ∃ n s, Turns base taken n s ∧ s.name ∉ taken

variable {s : NameSearch}

/-- **A search tries one number after the other**, and every name before was taken. -/
theorem Turns.passes (h : Turns base taken n s) :
    s = ⟨numbered base n, Int32.ofNat n⟩ ∧ ∀ j < n, numbered base j ∈ taken := by
  induction h with
  | start => exact ⟨rfl, fun _ hj => absurd hj (Nat.not_lt_zero _)⟩
  | @next n _ _ htaken ih =>
    obtain ⟨rfl, hbefore⟩ := ih
    refine ⟨?_, fun j hj => ?_⟩
    · rw [NameSearch.next, numbered_of_pos (Nat.le_add_left 1 n), Int32.ofNat_add]
      rfl
    · obtain hj | rfl := Nat.lt_succ_iff_lt_or_eq.1 hj
      · exact hbefore j hj
      · exact htaken

/-- A search takes turns up to every name before which there is no free one. -/
theorem turns_of_taken (h : ∀ j < n, numbered base j ∈ taken) :
    Turns base taken n ⟨numbered base n, Int32.ofNat n⟩ := by
  induction n with
  | zero => exact .start
  | succ n ih =>
    have hturns := (ih fun j hj => h j (Nat.lt_succ_of_lt hj)).next (h n (Nat.lt_succ_self n))
    rwa [hturns.passes.1] at hturns

/-- Behind the last number a search has no name in hand that was not taken before. -/
theorem Turns.le_period (h : Turns base taken n s) (hfree : s.name ∉ taken) : n ≤ 2 ^ 32 := by
  obtain ⟨rfl, hbefore⟩ := h.passes
  refine Nat.le_of_not_lt fun hlt => ?_
  have hearlier : numbered base (n - 2 ^ 32) ∈ taken := hbefore _ (by omega)
  rw [← numbered_add_period (by omega), Nat.sub_add_cancel (by omega)] at hearlier
  exact hfree hearlier

/-- **A search that ends takes no more turns than there are names taken.** -/
theorem Turns.le_length (h : Turns base taken n s) (hfree : s.name ∉ taken) : n ≤ taken.length :=
  le_length_of_taken (Nat.le_succ_of_le (h.le_period hfree)) h.passes.2

/-- **No search takes a turn behind its end.** -/
theorem Turns.le_of_free {m : Nat} {s' : NameSearch} (h' : Turns base taken m s')
    (h : Turns base taken n s) (hfree : s.name ∉ taken) : m ≤ n := by
  obtain ⟨rfl, -⟩ := h.passes
  exact Nat.le_of_not_lt fun hlt => hfree (h'.passes.2 n hlt)

/-- After its turns a search is in one place. -/
theorem Turns.unique {s' : NameSearch} (h : Turns base taken n s) (h' : Turns base taken n s') :
    s = s' :=
  h.passes.1.trans h'.passes.1.symm

/-- To advance a search takes turns of it, all of them unless a name is free. -/
theorem exists_turns_advance (h : Turns base taken n s) (fuel : Nat) :
    ∃ m, Turns base taken m (advance base taken fuel s) ∧
      ((advance base taken fuel s).name ∈ taken → m = n + fuel) := by
  induction fuel generalizing n s with
  | zero => exact ⟨n, h, fun _ => rfl⟩
  | succ fuel ih =>
    rw [advance]
    split
    · next htaken =>
      obtain ⟨m, hm, hall⟩ := ih (h.next htaken)
      exact ⟨m, hm, fun hmem => (hall hmem).trans (Nat.succ_add_eq_add_succ n fuel)⟩
    · next hfree => exact ⟨n, h, fun hmem => absurd hmem hfree⟩

/-- `freshName` is in hand after some turns, all that it may take unless a name is free before. -/
theorem exists_turns_freshName (base : String) (taken : List String) :
    ∃ n s, Turns base taken n s ∧ s.name = freshName base taken ∧
      (s.name ∈ taken → n = taken.length) := by
  obtain ⟨n, h, hall⟩ := exists_turns_advance (Turns.start : Turns base taken 0 _) taken.length
  exact ⟨n, _, h, rfl, fun hmem => (hall hmem).trans (Nat.zero_add _)⟩

/-- **A search that ends does so with the fresh name.** -/
theorem Turns.freshName_eq (h : Turns base taken n s) (hfree : s.name ∉ taken) :
    freshName base taken = s.name := by
  obtain ⟨m, s', h', hname, hall⟩ := exists_turns_freshName base taken
  have hle : m ≤ n := h'.le_of_free h hfree
  have hge : n ≤ m := by
    by_cases hmem : s'.name ∈ taken
    · rw [hall hmem]
      exact h.le_length hfree
    · exact h.le_of_free h' hmem
  obtain rfl := Nat.le_antisymm hle hge
  rw [← hname, h.unique h']

/-- A search ends if some name is free that it comes to. -/
theorem ends_of_free (hfree : numbered base k ∉ taken) : Ends base taken := by
  classical
  have hleast := Nat.isLeast_find (⟨k, hfree⟩ : ∃ j, numbered base j ∉ taken)
  refine ⟨_, _, turns_of_taken fun j hj => ?_, hleast.1⟩
  exact by_contra fun hfree => absurd (hleast.2 hfree) (Nat.not_le_of_lt hj)

/-- **A search ends if and only if one of the first `2 ^ 32 + 1` names is free.** -/
theorem ends_iff : Ends base taken ↔ ∃ k ≤ 2 ^ 32, numbered base k ∉ taken := by
  constructor
  · rintro ⟨n, s, h, hfree⟩
    have hle := h.le_period hfree
    obtain ⟨rfl, -⟩ := h.passes
    exact ⟨n, hle, hfree⟩
  · rintro ⟨k, -, hfree⟩
    exact ends_of_free hfree

/-- **The numbers outlast `2 ^ 32` names.** -/
theorem ends_of_length_le (h : taken.length ≤ 2 ^ 32) : Ends base taken := by
  by_contra hends
  have htaken : ∀ j < 2 ^ 32 + 1, numbered base j ∈ taken :=
    fun j _ => by_contra fun hfree => hends (ends_of_free hfree)
  have hlength := le_length_of_taken le_rfl htaken
  omega

end NameSearch

/-- **A fresh name is none of those taken**, if the search for it ends. -/
theorem freshName_not_mem (h : NameSearch.Ends base taken) : freshName base taken ∉ taken := by
  obtain ⟨n, s, h, hfree⟩ := h
  rw [h.freshName_eq hfree]
  exact hfree

end Chainlet
