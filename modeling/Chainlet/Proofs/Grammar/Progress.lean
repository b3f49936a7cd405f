import Chainlet.Proofs.Grammar.Sound

/-!
# Proofs/Grammar/Progress — reading leaves less to be read

A node of a rule that is `solid` takes at least one character: it is a word, stands between brackets,
or has a solid child.  So every production with solid nodes makes progress (`Reads.length_lt`), and a
repetition of steps that make progress ends because a step fails and not because its bound is
reached: `Steps` is such a run without the bound, and `repeated_eq_of_steps` brings the bound back.
-/

namespace Chainlet

/-! ## Solid rules -/

/-- Whether a node of a rule takes at least one character. -/
def Rule.isSolid : Rule → Bool
  | .program | .generics | .parameters | .arguments | .optional => false
  | _ => true

/-- Whether whatever stands in a slot takes at least one character. -/
def Slot.isSolid : Slot → Bool
  | rule r => r.isSolid
  | category k => k != .component && k != .program
  | optional _ => false

/-- Whether children in a layout take at least one character between them. -/
def Layout.isSolid : Layout → Bool
  | fixed slots => slots.any Slot.isSolid
  | some slot => slot.isSolid
  | _ => false

/-- A solid slot admits nodes of solid rules only. -/
theorem Slot.isSolid_of_admits {slot : Slot} {t : Tree} (hsolid : slot.isSolid = true)
    (h : slot.admits t = true) : t.rule.isSolid = true := by
  cases slot with
  | rule r => rw [show t.rule = r from beq_iff_eq.1 h]; exact hsolid
  | category k =>
    obtain rfl : t.rule.category = k := beq_iff_eq.1 h
    revert hsolid
    cases t.rule <;> decide
  | optional r => cases hsolid

/-- One of the children in solid slots is solid. -/
theorem Slot.any_solid {slots : List Slot} {ts : List Tree}
    (hsolid : slots.any Slot.isSolid = true) (h : admitsEach slots ts = true) :
    ts.any (·.rule.isSolid) = true := by
  induction slots generalizing ts with
  | nil => cases hsolid
  | cons s ss ih =>
    obtain ⟨t, us, rfl, hslot, hrest⟩ := admitsEach_cons_iff.1 h
    rw [List.any_cons, Bool.or_eq_true] at hsolid ⊢
    exact hsolid.imp (fun hs => isSolid_of_admits hs hslot) fun hss => ih hss hrest

/-- One of the children in a solid layout is solid. -/
theorem Layout.any_solid {layout : Layout} {ts : List Tree} (hsolid : layout.isSolid = true)
    (h : layout.admits ts = true) : ts.any (·.rule.isSolid) = true := by
  cases layout with
  | fixed slots => exact Slot.any_solid hsolid h
  | some slot =>
    obtain ⟨hne, hall⟩ := (Bool.and_eq_true ..).mp h
    cases ts with
    | nil => cases hne
    | cons t ts =>
      rw [List.all_cons, Bool.and_eq_true] at hall
      rw [List.any_cons, Slot.isSolid_of_admits hsolid hall.1, Bool.true_or]
  | leaf => cases hsolid
  | many slot => cases hsolid
  | atMostOne => cases hsolid

/-- A solid rule without a word and without brackets has a solid layout. -/
theorem Rule.layout_isSolid {r : Rule} :
    r.form? = none → r.brackets? = none → r.isSolid = true → r.layout.isSolid = true := by
  cases r <;> intro hform hbrackets hsolid <;> first | rfl | contradiction

/-- The rules of parts that may be missing are not solid. -/
theorem Rule.not_isSolid (r : Rule) : r.mayBeAbsent = true → r.isSolid = false := by
  cases r <;> decide

/-! ## What lies between two cursors -/

namespace Cursor

/-- A cursor behind another one in the same source. -/
def Reaches (c d : Cursor) : Prop :=
  ∃ word, c.rest = word ++ d.rest ∧ d.offset = c.offset + byteLength word

variable {c d e : Cursor} {word rest : List Char}

theorem reaches_refl (c : Cursor) : c.Reaches c := ⟨[], rfl, rfl⟩

/-- A cursor reaches what is behind a word of its text. -/
theorem reaches_after (h : c.rest = word ++ rest) : c.Reaches (c.after word rest) := ⟨word, h, rfl⟩

/-- A cursor reaches what is behind the blanks. -/
theorem reaches_skipBlank (c : Cursor) : c.Reaches c.skipBlank :=
  reaches_after List.takeWhile_append_dropWhile.symm

/-- What is reached from a cursor that is reached is reached. -/
theorem Reaches.trans (h : c.Reaches d) (h' : d.Reaches e) : c.Reaches e := by
  obtain ⟨word, hword, hoffset⟩ := h
  obtain ⟨more, hmore, hoffset'⟩ := h'
  refine ⟨word ++ more, by rw [hword, hmore, List.append_assoc], ?_⟩
  rw [hoffset', hoffset, byteLength_append, Nat.add_assoc]

/-- Behind a cursor, no more text is left. -/
theorem Reaches.length_le (h : c.Reaches d) : d.rest.length ≤ c.rest.length := by
  obtain ⟨word, hword, -⟩ := h
  rw [hword, List.length_append]
  exact Nat.le_add_left _ _

theorem Reaches.offset_le (h : c.Reaches d) : c.offset ≤ d.offset := by
  obtain ⟨word, -, hoffset⟩ := h
  rw [hoffset]
  exact Nat.le_add_right ..

end Cursor

mutual

/-- **What was read lies between the two cursors.** -/
theorem Derives.reaches {c d : Cursor} {t : Tree} : Derives c t d → c.Reaches d
  | .leaf _ _ htext => Cursor.reaches_after htext
  | .branch _ _ _ hinside => hinside.reaches
  | .bracketed _ _ hopening hinside hclosing =>
    ((Cursor.reaches_after hopening).trans hinside.reaches).trans (Cursor.reaches_after hclosing)

/-- The children of a node are read forwards. -/
theorem Fills.reaches {rule : Rule} {c d : Cursor} {ts : List Tree} :
    Fills rule c ts d → c.Reaches d
  | .done => c.reaches_refl
  | .blank h => c.reaches_skipBlank.trans h.reaches
  | .sign _ htext h => (Cursor.reaches_after htext).trans h.reaches
  | .child hchild h => hchild.reaches.trans h.reaches
  | .absent _ h => h.reaches

end

/-! ## Lengths -/

theorem Cursor.length_skipBlank (c : Cursor) : c.skipBlank.rest.length ≤ c.rest.length :=
  (List.dropWhile_sublist isBlank).length_le

theorem Cursor.length_after {c : Cursor} {word rest : List Char} (h : c.rest = word ++ rest) :
    (c.after word rest).rest.length + word.length = c.rest.length := by
  rw [h, List.length_append, Nat.add_comm]
  rfl

theorem Derives.length_le {c d : Cursor} {t : Tree} (h : Derives c t d) :
    d.rest.length ≤ c.rest.length := h.reaches.length_le

theorem Fills.length_le {rule : Rule} {c d : Cursor} {ts : List Tree} (h : Fills rule c ts d) :
    d.rest.length ≤ c.rest.length := h.reaches.length_le

/-- An opening bracket is no empty text. -/
theorem Rule.opening_ne_nil {r : Rule} {opening closing : List Char}
    (h : r.brackets? = some (opening, closing)) : opening ≠ [] := by
  rintro rfl
  cases r <;> cases h

mutual

/-- **A solid node takes at least one character.** -/
theorem Derives.length_lt {c d : Cursor} {t : Tree} :
    Derives c t d → t.rule.isSolid = true → d.rest.length < c.rest.length
  | @Derives.leaf rule form _ word _ hform hword htext, _ => by
    have hlength := Cursor.length_after htext
    have hpos := List.length_pos_iff.2 (rule.word_ne_nil hform hword)
    omega
  | @Derives.branch rule _ _ _ hform hbrackets hlayout hinside, hsolid =>
    hinside.length_lt (Layout.any_solid (Rule.layout_isSolid hform hbrackets hsolid) hlayout)
  | @Derives.bracketed rule _ _ _ _ _ _ _ hbrackets _ hopening hinside hclosing, _ => by
    have hopen := Cursor.length_after hopening
    have hclose := Cursor.length_after hclosing
    have hlength := hinside.length_le
    have hpos := List.length_pos_iff.2 (rule.opening_ne_nil hbrackets)
    omega

/-- Children of which one is solid take at least one character. -/
theorem Fills.length_lt {rule : Rule} {c d : Cursor} {ts : List Tree} :
    Fills rule c ts d → ts.any (·.rule.isSolid) = true → d.rest.length < c.rest.length
  | .done, h => nomatch h
  | .blank hmore, h => Nat.lt_of_lt_of_le (hmore.length_lt h) c.length_skipBlank
  | .sign _ htext hmore, h => by
    have hsign := Cursor.length_after htext
    have hlength := hmore.length_lt h
    omega
  | @Fills.child _ _ _ _ t _ hchild hmore, h => by
    have hmore_le := hmore.length_le
    have hchild_le := hchild.length_le
    rw [List.any_cons, Bool.or_eq_true] at h
    rcases h with ht | hts
    · have hlt := hchild.length_lt ht
      omega
    · have hlt := hmore.length_lt hts
      omega
  | @Fills.absent _ missing c _ _ hmissing hmore, h => by
    have hmissing : (Production.absent missing c).rule.isSolid = false := missing.not_isSolid hmissing
    rw [List.any_cons, hmissing, Bool.false_or] at h
    exact hmore.length_lt h

end

namespace Production

/-- **A production of solid nodes makes progress.** -/
theorem Reads.length_lt {p : Production} {slot : Slot} (hp : p.Reads slot)
    (hsolid : slot.isSolid = true) {c d : Cursor} {t : Tree} (h : p c = some (t, d)) :
    d.rest.length < c.rest.length :=
  (hp h).1.length_lt (Slot.isSolid_of_admits hsolid (hp h).2)

/-- A sign takes at least one character. -/
theorem Only.length_lt {l : Lexeme} {word : List Char} (hl : Only l word) (hne : word ≠ [])
    {c d : Cursor} (h : Production.sign l c = some d) : d.rest.length < c.rest.length := by
  obtain ⟨rest, htext, rfl⟩ := hl.sign h
  have hlength := Cursor.length_after htext
  have hpos := List.length_pos_iff.2 hne
  omega

/-! ## Repetition without a bound -/

variable {α : Type} {step : Cursor → Option (α × Cursor)}

/-- What a step reads again and again, from one cursor to another. -/
inductive Steps (step : Cursor → Option (α × Cursor)) : Cursor → List α → Cursor → Prop where
  | nil {c : Cursor} : Steps step c [] c
  | cons {c d e : Cursor} {a : α} {as : List α} (hstep : step c = some (a, d))
      (hmore : Steps step d as e) : Steps step c (a :: as) e

/-- Steps go on where others end. -/
theorem Steps.append {c d e : Cursor} {as bs : List α} (h : Steps step c as d)
    (hmore : Steps step d bs e) : Steps step c (as ++ bs) e := by
  induction h with
  | nil => exact hmore
  | cons hstep _ ih => exact .cons hstep (ih hmore)

/-- Steps that go forwards lead forwards. -/
theorem Steps.reaches (hreaches : ∀ ⦃c : Cursor⦄ ⦃a : α⦄ ⦃d : Cursor⦄, step c = some (a, d) →
    c.Reaches d) {c d : Cursor} {as : List α} (h : Steps step c as d) : c.Reaches d := by
  induction h with
  | nil => exact Cursor.reaches_refl _
  | cons hstep _ ih => exact (hreaches hstep).trans ih

/-- A step that makes progress whenever it reads something. -/
def Shortens (step : Cursor → Option (α × Cursor)) : Prop :=
  ∀ ⦃c : Cursor⦄ ⦃a : α⦄ ⦃d : Cursor⦄, step c = some (a, d) → d.rest.length < c.rest.length

/-- Each step takes a character, so there are no more steps than characters. -/
theorem Steps.length_le (hshort : Shortens step) {c d : Cursor} {as : List α}
    (h : Steps step c as d) : as.length + d.rest.length ≤ c.rest.length := by
  induction h with
  | nil => simp
  | cons hstep _ ih =>
    have hlt := hshort hstep
    rw [List.length_cons]
    omega

/-- A repetition with a bound that is not too small takes all steps there are. -/
theorem repeated_eq_of_length_le {n : Nat} {c d : Cursor} {as : List α} (h : Steps step c as d)
    (hstop : step d = none) (hn : as.length ≤ n) : repeated step n c = (as, d) := by
  induction h generalizing n with
  | nil => cases n <;> simp [repeated, hstop]
  | cons hstep _ ih =>
    cases n with
    | zero => cases hn
    | succ n => rw [repeated, hstep]; simp [ih hstop (Nat.le_of_succ_le_succ hn)]

/-- **A bound as large as the rest of the source is out of reach.** -/
theorem repeated_eq_of_steps (hshort : Shortens step) {n : Nat} {c d : Cursor} {as : List α}
    (h : Steps step c as d) (hstop : step d = none) (hn : c.rest.length ≤ n) :
    repeated step n c = (as, d) := by
  have hlength := h.length_le hshort
  exact repeated_eq_of_length_le h hstop (by omega)

/-- What a repetition reads, if its bound is as large as the rest of the source. -/
theorem steps_of_repeated (hshort : Shortens step) {n : Nat} {c d : Cursor} {as : List α}
    (h : repeated step n c = (as, d)) (hn : c.rest.length ≤ n) :
    Steps step c as d ∧ step d = none := by
  induction n generalizing c as with
  | zero =>
    cases h
    refine ⟨.nil, ?_⟩
    cases hstep : step d with
    | none => rfl
    | some r => have hlt := hshort hstep; omega
  | succ n ih =>
    rw [repeated] at h
    split at h
    · next hstep => cases h; exact ⟨.nil, hstep⟩
    · next a d' hstep =>
      generalize hrest : repeated step n d' = rest at h
      obtain ⟨bs, e⟩ := rest
      cases h
      have hlt := hshort hstep
      obtain ⟨hsteps, hstop⟩ := ih hrest (by omega)
      exact ⟨.cons hstep hsteps, hstop⟩

end Production

end Chainlet
