/-!
# Proofs/Text/PrefixCode — texts that are read off the front of what follows

A `PrefixCode` writes values so that **whatever stands behind two of its texts, the values and what
stands behind them can be told apart**.  Writing such texts one after the other, up to a place where
none of them stands (`Stops`), loses nothing (`PrefixCode.flatMap`).  The simplest of them is a run of
characters with a property, in front of one without it (`append_inj_of_run`).
-/

namespace Chainlet

variable {α β : Type}

/-! ## Runs -/

/-- A text in front of which a run of characters with a property ends. -/
def EndsRun (p : β → Bool) (rest : List β) : Prop := rest.head?.any p = false

theorem takeWhile_run {p : β → Bool} {run rest : List β} (h : run.all p = true)
    (hrest : EndsRun p rest) :
    (run ++ rest).takeWhile p = run ∧ (run ++ rest).dropWhile p = rest := by
  rw [List.takeWhile_append_of_pos (List.all_eq_true.1 h),
    List.dropWhile_append_of_pos (List.all_eq_true.1 h)]
  cases rest with
  | nil => simp
  | cons c rest =>
    have hc : p c = false := hrest
    simp [hc]

/-- **A run is read off its front.** -/
theorem append_inj_of_run {p : β → Bool} {u v x y : List β} (hu : u.all p = true)
    (hv : v.all p = true) (h : u ++ x = v ++ y) (hx : EndsRun p x) (hy : EndsRun p y) :
    u = v ∧ x = y := by
  obtain ⟨htake, hdrop⟩ := takeWhile_run hu hx
  obtain ⟨htake', hdrop'⟩ := takeWhile_run hv hy
  rw [h] at htake hdrop
  exact ⟨htake.symm.trans htake', hdrop.symm.trans hdrop'⟩

/-! ## Prefix codes -/

/-- A way of writing the values with a property in front of anything. -/
def PrefixCode (P : α → Prop) (code : α → List β) : Prop :=
  ∀ ⦃a b⦄, P a → P b → ∀ ⦃x y⦄, code a ++ x = code b ++ y → a = b ∧ x = y

/-- A text with no code of a value in front. -/
def Stops (P : α → Prop) (code : α → List β) (x : List β) : Prop :=
  ∀ a, P a → ∀ y, code a ++ y ≠ x

variable {P : α → Prop} {code : α → List β} {x y : List β}

/-- A code that can be read is a prefix code. -/
theorem PrefixCode.of_read {read : List β → Option (α × List β)}
    (h : ∀ a, P a → ∀ x, read (code a ++ x) = some (a, x)) : PrefixCode P code := by
  intro a b ha hb x y heq
  have hread := h a ha x
  rw [heq, h b hb y, Option.some.injEq, Prod.mk.injEq] at hread
  exact ⟨hread.1.symm, hread.2.symm⟩

theorem stops_nil (h : ∀ a, P a → code a ≠ []) : Stops P code [] :=
  fun a ha _ heq => h a ha (List.append_eq_nil_iff.1 heq).1

/-- **Codes one after the other are read off the front of what stops them.** -/
theorem PrefixCode.flatMap (hcode : PrefixCode P code) (hx : Stops P code x)
    (hy : Stops P code y) : ∀ {as bs : List α}, (∀ a ∈ as, P a) → (∀ b ∈ bs, P b) →
    as.flatMap code ++ x = bs.flatMap code ++ y → as = bs ∧ x = y
  | [], [], _, _, h => ⟨rfl, h⟩
  | [], b :: bs, _, hbs, h => by
    rw [List.flatMap_nil, List.nil_append, List.flatMap_cons, List.append_assoc] at h
    exact absurd h.symm (hx b (hbs b List.mem_cons_self) _)
  | a :: as, [], has, _, h => by
    rw [List.flatMap_nil, List.nil_append, List.flatMap_cons, List.append_assoc] at h
    exact absurd h (hy a (has a List.mem_cons_self) _)
  | a :: as, b :: bs, has, hbs, h => by
    rw [List.flatMap_cons, List.append_assoc, List.flatMap_cons, List.append_assoc] at h
    obtain ⟨rfl, hrest⟩ := hcode (has a List.mem_cons_self) (hbs b List.mem_cons_self) h
    obtain ⟨rfl, hxy⟩ := PrefixCode.flatMap hcode hx hy
      (fun c hc => has c (List.mem_cons_of_mem a hc))
      (fun c hc => hbs c (List.mem_cons_of_mem a hc)) hrest
    exact ⟨rfl, hxy⟩

/-- Codes one after the other, and nothing behind them. -/
theorem PrefixCode.flatMap_inj (hcode : PrefixCode P code) (hne : ∀ a, P a → code a ≠ [])
    {as bs : List α} (has : ∀ a ∈ as, P a) (hbs : ∀ b ∈ bs, P b)
    (h : as.flatMap code = bs.flatMap code) : as = bs :=
  (hcode.flatMap (stops_nil hne) (stops_nil hne) has hbs (congrArg (· ++ []) h)).1

end Chainlet
