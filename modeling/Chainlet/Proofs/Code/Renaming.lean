import Chainlet.Proofs.Code.Fresh

/-!
# Proofs/Code/Renaming — the local of a function takes the first free name, as far as words count

The local of a function is renamed until no parameter has its name.  Its names are the configured one and
this one with one, two, … behind it; the least number with which it is free is at most as large as the
list of named parameters is long (`exists_isLeast_free`).  The search for it counts in words: it finds the
name if that number has 31 bits (`freshName_eq_iff`), and behind the largest word it goes on at the
least.  `Definition.scratch_first_free` puts this together, and `crowded_scratch` has the names that are
too many.
-/

namespace Chainlet

open NameSearch

variable {base : String} {taken : List String} {k n : Nat}

/-! ## The least number with which a name is free -/

/-- A number of 31 bits is written as what it counts. -/
theorem numbered_of_lt (hk : 1 ≤ k) (hlt : k < 2 ^ 31) : numbered base k = base ++ toString k := by
  rw [numbered_of_pos hk, toString_ofNat_of_lt hlt]

/-- No word is larger than 31 bits, so with a larger number behind it a name is none that a search comes
to. -/
theorem lt_of_numbered_eq (h : numbered base n = base ++ toString k) : k < 2 ^ 31 := by
  obtain rfl | hn := Nat.eq_zero_or_pos n
  · rw [numbered, eq_comm, String.append_eq_left_iff, Nat.toString_eq_repr] at h
    exact absurd h Nat.repr_ne_empty
  · rw [numbered_of_pos hn, String.append_right_inj, toString_word] at h
    have hvalue : (Int32.ofNat n).toInt = k := Int.repr_inj.1 h
    have hlt := (Int32.ofNat n).toInt_lt
    omega

/-- The base, and then the base with each number behind it, however large. -/
def counted (base : String) : Nat → String
  | 0 => base
  | k + 1 => base ++ toString (k + 1)

theorem counted_of_pos (hk : 1 ≤ k) : counted base k = base ++ toString k := by
  obtain ⟨k, rfl⟩ := Nat.exists_eq_add_of_le' hk
  rfl

/-- A number behind a name is never empty, and numbers are told apart. -/
theorem counted_injective (base : String) : Function.Injective (counted base) := by
  have hne : ∀ k, base ≠ base ++ toString (k + 1) := by
    intro k h
    rw [eq_comm, String.append_eq_left_iff, Nat.toString_eq_repr] at h
    exact Nat.repr_ne_empty h
  intro k l h
  cases k <;> cases l
  · rfl
  · exact absurd h (hne _)
  · exact absurd h.symm (hne _)
  · exact append_toString_inj.1 h

/-- **Numbers outlast the names taken**: a name that is taken is free with one of the first numbers. -/
theorem exists_number_free (htaken : base ∈ taken) :
    ∃ k, 1 ≤ k ∧ k ≤ taken.length ∧ base ++ toString k ∉ taken := by
  by_contra hnone
  push Not at hnone
  -- the name itself stands first among those with a number behind it
  have hlength : taken.length + 1 ≤ taken.length := by
    refine le_length_of_injOn (counted_injective base).injOn fun k hk => ?_
    obtain rfl | hpos := Nat.eq_zero_or_pos k
    · exact htaken
    · rw [counted_of_pos hpos]
      exact hnone k hpos (Nat.lt_succ_iff.1 hk)
  exact Nat.not_succ_le_self _ hlength

/-- **Some number is the least with which a name is free**, and it is at most the count of the names
taken. -/
theorem exists_isLeast_free (htaken : base ∈ taken) :
    ∃ k, IsLeast {k | 1 ≤ k ∧ base ++ toString k ∉ taken} k ∧ k ≤ taken.length := by
  classical
  obtain ⟨l, hpos, hle, hfree⟩ := exists_number_free htaken
  have hleast := Nat.isLeast_find (⟨l, hpos, hfree⟩ : ∃ k, 1 ≤ k ∧ base ++ toString k ∉ taken)
  exact ⟨_, hleast, (hleast.2 ⟨hpos, hfree⟩).trans hle⟩

/-- **A search finds the first free name if words count that far.** -/
theorem freshName_eq_iff (htaken : base ∈ taken)
    (hleast : IsLeast {k | 1 ≤ k ∧ base ++ toString k ∉ taken} k) :
    freshName base taken = base ++ toString k ↔ k < 2 ^ 31 := by
  constructor
  · intro hname
    obtain ⟨n, s, h, hs, -⟩ := exists_turns_freshName base taken
    obtain ⟨rfl, -⟩ := h.passes
    exact lt_of_numbered_eq (hs.trans hname)
  · intro hlt
    have hbefore : ∀ j < k, numbered base j ∈ taken := by
      intro j hj
      obtain rfl | hpos := Nat.eq_zero_or_pos j
      · exact htaken
      · rw [numbered_of_lt hpos (hj.trans hlt)]
        exact by_contra fun hfree => absurd (hleast.2 ⟨hpos, hfree⟩) (Nat.not_le_of_lt hj)
    have hname : numbered base k = base ++ toString k := numbered_of_lt hleast.1.1 hlt
    have hfree : numbered base k ∉ taken := hname ▸ hleast.1.2
    rw [(turns_of_taken hbefore).freshName_eq hfree, hname]

/-- **The renaming of a local ends, and as far as words count at the first free name.**  Where the
search has a free name in hand, it has taken no more turns than there are parameters with a name, and the
name is that of the local.  It comes to one if and only if one of its `2 ^ 32 + 1` names is free, as it is
beside at most `2 ^ 32` parameters.  The local has the configured name if no parameter has it.  Else there
is a least number behind that name with which no parameter has it, no larger than the count of named
parameters; and the local has this name if and only if the number has 31 bits. -/
theorem Definition.scratch_first_free (o : Options) (d : Definition) :
    (∀ n s, NameSearch.Turns o.scratch d.parameterNames n s → s.name ∉ d.parameterNames →
      n ≤ d.parameterNames.length ∧ d.scratch o = s.name) ∧
    (NameSearch.Ends o.scratch d.parameterNames ↔
      ∃ k ≤ 2 ^ 32, numbered o.scratch k ∉ d.parameterNames) ∧
    (d.parameterNames.length ≤ 2 ^ 32 → NameSearch.Ends o.scratch d.parameterNames) ∧
    (o.scratch ∉ d.parameterNames → d.scratch o = o.scratch) ∧
    (o.scratch ∈ d.parameterNames →
      ∃ k, IsLeast {k | 1 ≤ k ∧ o.scratch ++ toString k ∉ d.parameterNames} k ∧
        k ≤ d.parameterNames.length ∧ (d.scratch o = o.scratch ++ toString k ↔ k < 2 ^ 31)) := by
  refine ⟨fun n s h hfree => ⟨h.le_length hfree, h.freshName_eq hfree⟩, NameSearch.ends_iff,
    NameSearch.ends_of_length_le, freshName_of_not_mem, fun htaken => ?_⟩
  obtain ⟨k, hleast, hle⟩ := exists_isLeast_free htaken
  exact ⟨k, hleast, hle, freshName_eq_iff htaken hleast⟩

/-- `@fn f addr 5 addr2 addr addr1`: one name twice, names that look renamed, and a number. -/
def suffixedParameters : Definition where
  keyword := "@fn"
  name := ⟨"f", none, none⟩
  generics := none
  parameters := [.named ⟨"addr", none, none⟩, .pattern (.int "5" .decimal none),
    .named ⟨"addr2", none, none⟩, .named ⟨"addr", none, none⟩, .named ⟨"addr1", none, none⟩]
  binding := none
  span := none

/-- Its local is `addr3`. -/
theorem suffixedParameters_scratch : suffixedParameters.scratch {} = "addr3" ∧
    NameSearch.Ends "addr" suffixedParameters.parameterNames ∧
    "addr" ∈ suffixedParameters.parameterNames ∧
    IsLeast {k | 1 ≤ k ∧ "addr" ++ toString k ∉ suffixedParameters.parameterNames} 3 := by
  have hscratch : suffixedParameters.scratch {} = "addr3" := rfl
  have htaken : "addr" ∈ suffixedParameters.parameterNames := by decide
  obtain ⟨-, -, hends, -, hfirst⟩ := suffixedParameters.scratch_first_free {}
  obtain ⟨k, hleast, hle, hname⟩ := hfirst htaken
  have hlength : suffixedParameters.parameterNames.length = 4 := rfl
  have hlt : k < 2 ^ 31 := by omega
  obtain rfl : k = 3 := append_toString_inj.1 ((hname.2 hlt).symm.trans hscratch)
  exact ⟨hscratch, hends (by decide), htaken, hleast⟩

/-- `@fn f addr addr1 addr2 …`: a number of parameters with the names that a search comes to. -/
def crowded (n : Nat) : Definition where
  keyword := "@fn"
  name := ⟨"f", none, none⟩
  generics := none
  parameters := (List.range n).map fun k => .named ⟨numbered "addr" k, none, none⟩
  binding := none
  span := none

theorem mem_parameterNames_crowded {name : String} :
    name ∈ (crowded n).parameterNames ↔ ∃ k < n, numbered "addr" k = name := by
  simp [crowded, Definition.parameterNames, Parameter.name?]

/-- Beside the first names of a search the local has the next one. -/
theorem scratch_crowded (hn : n ≤ 2 ^ 32) : (crowded n).scratch {} = numbered "addr" n := by
  have hfree : numbered "addr" n ∉ (crowded n).parameterNames := by
    intro hmem
    obtain ⟨k, hlt, hk⟩ := mem_parameterNames_crowded.1 hmem
    exact hlt.ne (numbered_inj (hlt.le.trans hn) hn hk)
  have hturns : Turns "addr" (crowded n).parameterNames n ⟨numbered "addr" n, Int32.ofNat n⟩ :=
    turns_of_taken fun k hlt => mem_parameterNames_crowded.2 ⟨k, hlt, rfl⟩
  exact hturns.freshName_eq hfree

/-- **Beside the parameters `addr`, `addr1`, … `addr2147483647` the local is not the first free name**,
`addr2147483648`, but `addr-2147483648`.  Beside all `2 ^ 32 + 1` names that the search comes to, it does
not end. -/
theorem crowded_scratch :
    IsLeast {k | 1 ≤ k ∧ "addr" ++ toString k ∉ (crowded (2 ^ 31)).parameterNames} 2147483648 ∧
    (crowded (2 ^ 31)).scratch {} = "addr-2147483648" ∧
    ¬ NameSearch.Ends "addr" (crowded (2 ^ 32 + 1)).parameterNames := by
  refine ⟨⟨⟨by decide, fun hmem => ?_⟩, fun k ⟨hpos, hfree⟩ => ?_⟩, ?_, ?_⟩
  · obtain ⟨k, -, hk⟩ := mem_parameterNames_crowded.1 hmem
    exact absurd (lt_of_numbered_eq hk) (lt_irrefl _)
  · refine Nat.le_of_not_lt fun hlt => hfree ?_
    exact mem_parameterNames_crowded.2 ⟨k, hlt, numbered_of_lt hpos hlt⟩
  · rw [scratch_crowded (by decide)]
    rfl
  · rw [NameSearch.ends_iff]
    rintro ⟨k, hle, hfree⟩
    exact hfree (mem_parameterNames_crowded.2 ⟨k, Nat.lt_succ_of_le hle, rfl⟩)

end Chainlet
