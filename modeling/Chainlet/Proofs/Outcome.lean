import Mathlib.Data.List.Forall2

/-!
# Proofs/Outcome — steps that may fail, one after the other

`bind_eq_ok` takes a successful sequence of steps apart, and `Agree.bind` puts two of them together
side by side; the rest reads sequences whose first step is known.
-/

namespace Chainlet

variable {ε α β : Type}

@[simp] theorem ok_bind (a : α) (f : α → Except ε β) : (Except.ok a >>= f) = f a := rfl

@[simp] theorem error_bind (e : ε) (f : α → Except ε β) :
    (Except.error e >>= f) = Except.error e := rfl

@[simp] theorem pure_eq_ok (a : α) : (pure a : Except ε α) = .ok a := rfl

@[simp] theorem throw_eq_error (e : ε) : (throw e : Except ε α) = .error e := rfl

/-- **A sequence succeeds when both of its steps do.** -/
theorem bind_eq_ok {x : Except ε α} {f : α → Except ε β} {b : β} :
    x >>= f = .ok b ↔ ∃ a, x = .ok a ∧ f a = .ok b := by
  cases x with
  | ok a => simp
  | error e => simp

/-- A sequence fails with the error of its first step that fails. -/
theorem bind_eq_error {x : Except ε α} {f : α → Except ε β} {e : ε} :
    x >>= f = .error e ↔ x = .error e ∨ ∃ a, x = .ok a ∧ f a = .error e := by
  cases x with
  | ok a => simp
  | error e => simp

/-- Renaming the errors of a step leaves its results. -/
theorem mapError_eq_ok {ε' : Type} {x : Except ε α} {f : ε → ε'} {a : α} :
    x.mapError f = .ok a ↔ x = .ok a := by
  cases x <;> simp [Except.mapError]

theorem map_eq_ok {x : Except ε α} {f : α → β} {b : β} :
    x.map f = .ok b ↔ ∃ a, x = .ok a ∧ f a = b := by
  cases x <;> simp [Except.map]

/-- A result is given exactly if it is that of the run. -/
theorem toOption_eq_some {x : Except ε α} {a : α} : x.toOption = some a ↔ x = .ok a := by
  cases x <;> simp [Except.toOption]

/-- A step that gives a result. -/
def Succeeds (x : Except ε α) : Prop := ∃ a, x = .ok a

/-! ## Two runs in step -/

/-- Two steps that both give results, which are the same under two maps. -/
def Agree (m m' : α → β) (x x' : Except ε α) : Prop := ∃ a a', x = .ok a ∧ x' = .ok a' ∧ m a = m' a'

section Agree

variable {γ δ : Type} {m m' : α → β} {q q' : γ → δ} {x x' : Except ε α}

/-- Results that agree come from runs that do. -/
theorem agree_ok {a a' : α} (h : m a = m' a') : Agree m m' (Except.ok a : Except ε α) (.ok a') :=
  ⟨a, a', rfl, rfl, h⟩

theorem Agree.succeeds (h : Agree m m' x x') : Succeeds x := by
  obtain ⟨a, -, hx, -, -⟩ := h
  exact ⟨a, hx⟩

/-- **Sequences agree when both of their steps do.** -/
theorem Agree.bind (hx : Agree m m' x x') {f f' : α → Except ε γ}
    (hf : ∀ a a', m a = m' a' → Agree q q' (f a) (f' a')) : Agree q q' (x >>= f) (x' >>= f') := by
  obtain ⟨a, a', rfl, rfl, h⟩ := hx
  exact hf a a' h

/-- Results that are changed alike agree as before. -/
theorem Agree.map (hx : Agree m m' x x') {f : α → γ} (hf : ∀ a a', m a = m' a' → q (f a) = q' (f a')) :
    Agree q q' (x.map f) (x'.map f) := by
  obtain ⟨a, a', rfl, rfl, h⟩ := hx
  exact agree_ok (hf a a' h)

/-- Runs that agree one by one agree all together. -/
theorem agree_mapM {t t' : List γ} {f : γ → Except ε α}
    (h : List.Forall₂ (fun y y' => Agree m m' (f y) (f y')) t t') :
    Agree (List.map m) (List.map m') (t.mapM f) (t'.mapM f) := by
  induction h with
  | nil => exact agree_ok rfl
  | cons hfirst _ ih =>
    rw [List.mapM_cons, List.mapM_cons]
    refine hfirst.bind fun a a' ha => ih.bind fun as as' has => agree_ok ?_
    rw [List.map_cons, List.map_cons, ha, has]

end Agree

end Chainlet
