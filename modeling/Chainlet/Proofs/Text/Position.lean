import Chainlet.Source.Fault

/-!
# Proofs/Text/Position — a line and a column are one place in a source

`Position.Before` is the order of places as they are read, line by line.  A longer text ends at a later
place (`Position.before_after`), so different offsets of one source have different places; and a place
leads back to its offset by a walk over lines and then over characters (`Position.offsetIn?`).  **The place
of a fault locates its byte and no other** (`Fault.position_locates`); a fault inside a character, or past
the end, is placed at the end.
-/

namespace Chainlet

namespace Position

/-! ## The order of places -/

/-- One place comes before another one: on an earlier line, or earlier on the same line. -/
def Before (p q : Position) : Prop := p.line < q.line ∨ p.line = q.line ∧ p.column < q.column

instance (p q : Position) : Decidable (p.Before q) := inferInstanceAs (Decidable (_ ∨ _))

variable {p q r : Position}

theorem Before.trans (h : p.Before q) (h' : q.Before r) : p.Before r := by
  unfold Before at *
  omega

theorem before_step (p : Position) (c : Char) : p.Before (p.step c) := by
  rw [step]
  split
  · exact .inl (Nat.lt_succ_self _)
  · exact .inr ⟨rfl, Nat.lt_succ_self _⟩

/-- The place after one more word is a later one. -/
theorem before_foldl_step (p : Position) {word : List Char} (hne : word ≠ []) :
    p.Before (word.foldl step p) := by
  induction word generalizing p with
  | nil => exact absurd rfl hne
  | cons c word ih =>
    rw [List.foldl_cons]
    cases word with
    | nil => exact p.before_step c
    | cons d word => exact (p.before_step c).trans (ih _ (List.cons_ne_nil d word))

/-- **A longer text ends at a later place.** -/
theorem before_after (text : List Char) {word : List Char} (hne : word ≠ []) :
    (after text).Before (after (text ++ word)) := by
  rw [after, after, List.foldl_append]
  exact before_foldl_step _ hne

/-! ## The way back -/

/-- The bytes passed on a walk over so many line feeds and then over so many characters more, which must
be on one line. -/
def walk? : (lines characters : Nat) → List Char → Option Nat
  | 0, 0, _ => some 0
  | _, _, [] => none
  | 0, k + 1, c :: text => if c = '\n' then none else (walk? 0 k text).map (c.utf8Size + ·)
  | n + 1, k, c :: text => (walk? (if c = '\n' then n else n + 1) k text).map (c.utf8Size + ·)

/-- **The offset of a place in a text**, unless the text has no such place.  Lines and columns are
counted from one. -/
def offsetIn? (text : List Char) : Position → Option Nat
  | ⟨n + 1, k + 1⟩ => walk? n k text
  | _ => none

/-- The place behind so many lines and so many more characters. -/
def ahead (p : Position) : (lines characters : Nat) → Position
  | 0, k => ⟨p.line, p.column + k⟩
  | n + 1, k => ⟨p.line + (n + 1), k + 1⟩

theorem start_ahead (n k : Nat) : start.ahead n k = ⟨n + 1, k + 1⟩ := by
  cases n with
  | zero => rw [ahead, start, Nat.add_comm 1 k]
  | succ n => rw [ahead, start, Nat.add_comm 1 (n + 1)]

theorem step_newline_ahead (p : Position) (n k : Nat) :
    (p.step '\n').ahead n k = p.ahead (n + 1) k := by
  cases n with
  | zero => simp [step, ahead, Nat.add_comm]
  | succ n => simp [step, ahead]; omega

theorem step_ahead_zero {c : Char} (hc : c ≠ '\n') (p : Position) (k : Nat) :
    (p.step c).ahead 0 k = p.ahead 0 (k + 1) := by
  simp [step, hc, ahead]
  omega

theorem step_ahead_succ {c : Char} (hc : c ≠ '\n') (p : Position) (n k : Nat) :
    (p.step c).ahead (n + 1) k = p.ahead (n + 1) k := by
  simp [step, hc, ahead]

/-- A walk ends behind a word that takes any place ahead by as many lines and characters. -/
theorem walk?_eq_some {n k : Nat} {text : List Char} {offset : Nat} (h : walk? n k text = some offset) :
    ∃ word rest, text = word ++ rest ∧ byteLength word = offset ∧
      ∀ p : Position, word.foldl step p = p.ahead n k := by
  fun_induction walk? n k text generalizing offset with
  | case1 text =>
    cases h
    exact ⟨[], text, rfl, rfl, fun _ => rfl⟩
  | case2 => cases h
  | case3 => cases h
  | case4 k c text hc ih =>
    obtain ⟨bytes, hbytes, rfl⟩ := Option.map_eq_some_iff.1 h
    obtain ⟨word, rest, rfl, rfl, hword⟩ := ih hbytes
    exact ⟨c :: word, rest, rfl, rfl, fun p => (hword _).trans (step_ahead_zero hc p k)⟩
  | case5 n k c text ih =>
    obtain ⟨bytes, hbytes, rfl⟩ := Option.map_eq_some_iff.1 h
    obtain ⟨word, rest, rfl, rfl, hword⟩ := ih hbytes
    refine ⟨c :: word, rest, rfl, rfl, fun p => (hword _).trans ?_⟩
    by_cases hc : c = '\n'
    · rw [if_pos hc, hc, step_newline_ahead]
    · rw [if_neg hc, step_ahead_succ hc]

/-- Every word takes all places ahead by some lines and characters, and a walk over these passes it. -/
theorem exists_walk? (word rest : List Char) : ∃ n k, walk? n k (word ++ rest) = some (byteLength word) ∧
    ∀ p : Position, word.foldl step p = p.ahead n k := by
  induction word with
  | nil => exact ⟨0, 0, by rw [walk?, byteLength_nil], fun _ => rfl⟩
  | cons c word ih =>
    obtain ⟨n, k, hwalk, hword⟩ := ih
    by_cases hc : c = '\n'
    · refine ⟨n + 1, k, ?_, fun p => (hword _).trans (hc ▸ step_newline_ahead p n k)⟩
      rw [List.cons_append, walk?, if_pos hc, hwalk, Option.map_some, byteLength_cons]
    · cases n with
      | zero =>
        refine ⟨0, k + 1, ?_, fun p => (hword _).trans (step_ahead_zero hc p k)⟩
        rw [List.cons_append, walk?, if_neg hc, hwalk, Option.map_some, byteLength_cons]
      | succ n =>
        refine ⟨n + 1, k, ?_, fun p => (hword _).trans (step_ahead_succ hc p n k)⟩
        rw [List.cons_append, walk?, if_neg hc, hwalk, Option.map_some, byteLength_cons]

theorem offsetIn?_after (word rest : List Char) :
    (after word).offsetIn? (word ++ rest) = some (byteLength word) := by
  obtain ⟨n, k, hwalk, hword⟩ := exists_walk? word rest
  rw [after, hword, start_ahead]
  exact hwalk

/-- **The places of a text are those that its beginnings end at.** -/
theorem offsetIn?_eq_some_iff {text : List Char} {offset : Nat} :
    p.offsetIn? text = some offset ↔
      ∃ word rest, text = word ++ rest ∧ byteLength word = offset ∧ after word = p := by
  constructor
  · intro h
    unfold offsetIn? at h
    split at h
    · next n k =>
      obtain ⟨word, rest, htext, hbytes, hword⟩ := walk?_eq_some h
      exact ⟨word, rest, htext, hbytes, (hword start).trans (start_ahead n k)⟩
    · cases h
  · rintro ⟨word, rest, rfl, rfl, rfl⟩
    exact offsetIn?_after word rest

end Position

/-! ## Offsets of a source -/

theorem firstBytes?_eq_some_iff {offset : Nat} {text word : List Char} :
    firstBytes? offset text = some word ↔ ∃ rest, text = word ++ rest ∧ byteLength word = offset := by
  constructor
  · exact eq_append_of_firstBytes?
  · rintro ⟨rest, rfl, rfl⟩
    exact firstBytes?_byteLength word rest

/-- The offsets with a word in front of them are those that lie between characters. -/
theorem isValid_iff_firstBytes? {offset : Nat} {source : String} :
    (String.Pos.Raw.mk offset).IsValid source ↔ ∃ word, firstBytes? offset source.toList = some word := by
  rw [String.Pos.Raw.isValid_iff_exists_append]
  constructor
  · rintro ⟨before, after, rfl, hoffset⟩
    refine ⟨before.toList, firstBytes?_eq_some_iff.2 ⟨after.toList, String.toList_append, ?_⟩⟩
    rw [← utf8ByteSize_eq_byteLength]
    exact (congrArg String.Pos.Raw.byteIdx hoffset).symm
  · rintro ⟨word, hword⟩
    obtain ⟨rest, hsource, rfl⟩ := firstBytes?_eq_some_iff.1 hword
    refine ⟨String.ofList word, String.ofList rest, ?_, ?_⟩
    · rw [← String.ofList_append, ← hsource, String.ofList_toList]
    · exact String.Pos.Raw.ext (utf8ByteSize_ofList word).symm

namespace Fault

variable {f g : Fault} {source : String}

/-- A fault between two characters stands behind the word that fills the bytes in front of it. -/
theorem exists_word (h : (String.Pos.Raw.mk f.offset).IsValid source) :
    ∃ word rest, source.toList = word ++ rest ∧ byteLength word = f.offset ∧
      f.position source = Position.after word := by
  obtain ⟨word, hword⟩ := isValid_iff_firstBytes?.1 h
  obtain ⟨rest, hsource, hoffset⟩ := firstBytes?_eq_some_iff.1 hword
  exact ⟨word, rest, hsource, hoffset, by rw [position, positionAt, hword, Option.getD_some]⟩

/-- Of two faults of a source, the earlier one has the earlier place. -/
theorem position_before (hf : (String.Pos.Raw.mk f.offset).IsValid source)
    (hg : (String.Pos.Raw.mk g.offset).IsValid source) (hlt : f.offset < g.offset) :
    (f.position source).Before (g.position source) := by
  obtain ⟨word, rest, hsource, hoffset, hposition⟩ := exists_word hf
  obtain ⟨word', rest', hsource', hoffset', hposition'⟩ := exists_word hg
  rw [hposition, hposition']
  -- both words are beginnings of the source, so the longer one goes on where the shorter one ends
  obtain ⟨more, rfl, -⟩ | ⟨more, rfl, -⟩ := List.append_eq_append_iff.1 (hsource.symm.trans hsource')
  · refine Position.before_after word ?_
    rintro rfl
    rw [List.append_nil, hoffset] at hoffset'
    omega
  · rw [byteLength_append] at hoffset
    omega

/-- **The line and column of a fault locate its byte and no other.**  Places grow with offsets; a place is
that of an offset exactly if the walk over its lines and columns arrives there; and what lies inside a
character or past the end has the place of the end. -/
theorem position_locates (source : String) :
    (∀ f g : Fault, (String.Pos.Raw.mk f.offset).IsValid source →
      (String.Pos.Raw.mk g.offset).IsValid source → f.offset < g.offset →
        (f.position source).Before (g.position source)) ∧
    (∀ (f : Fault) (p : Position), p.offsetIn? source.toList = some f.offset ↔
      (String.Pos.Raw.mk f.offset).IsValid source ∧ f.position source = p) ∧
    ∀ f g : Fault, ¬(String.Pos.Raw.mk f.offset).IsValid source → g.offset = source.utf8ByteSize →
      f.position source = g.position source := by
  refine ⟨fun f g => position_before, fun f p => ?_, fun f g hf hg => ?_⟩
  · rw [Position.offsetIn?_eq_some_iff]
    constructor
    · rintro ⟨word, rest, hsource, hoffset, rfl⟩
      have hword := firstBytes?_eq_some_iff.2 ⟨rest, hsource, hoffset⟩
      exact ⟨isValid_iff_firstBytes?.2 ⟨word, hword⟩, by
        rw [position, positionAt, hword, Option.getD_some]⟩
    · rintro ⟨hvalid, rfl⟩
      obtain ⟨word, rest, hsource, hoffset, hposition⟩ := exists_word hvalid
      exact ⟨word, rest, hsource, hoffset, hposition.symm⟩
  · have hinside : firstBytes? f.offset source.toList = none :=
      Option.eq_none_iff_forall_ne_some.2 fun word hword => hf (isValid_iff_firstBytes?.2 ⟨word, hword⟩)
    have hend : firstBytes? g.offset source.toList = some source.toList :=
      firstBytes?_eq_some_iff.2 ⟨[], (List.append_nil _).symm, by rw [hg, utf8ByteSize_eq_byteLength]⟩
    rw [position, positionAt_of_not_boundary hinside, position, positionAt, hend, Option.getD_some]

/-- Two bytes for the accent, then a second line.  The second byte of the accent has the place of the end. -/
theorem position_locates_accent :
    (String.Pos.Raw.mk 2).IsValid "é\nab" ∧ (String.Pos.Raw.mk 4).IsValid "é\nab" ∧
      ¬(String.Pos.Raw.mk 1).IsValid "é\nab" ∧
      (position ⟨"Expected item", 2⟩ "é\nab").Before (position ⟨"Expected item", 4⟩ "é\nab") ∧
      Position.offsetIn? "é\nab".toList ⟨2, 2⟩ = some 4 ∧
      position ⟨"Expected item", 1⟩ "é\nab" = position ⟨"Expected item", 5⟩ "é\nab" := by
  have hfirst : (String.Pos.Raw.mk 2).IsValid "é\nab" := isValid_iff_firstBytes?.2 ⟨['é'], by decide⟩
  have hsecond : (String.Pos.Raw.mk 4).IsValid "é\nab" :=
    isValid_iff_firstBytes?.2 ⟨['é', '\n', 'a'], by decide⟩
  have hinside : ¬(String.Pos.Raw.mk 1).IsValid "é\nab" := fun h => by
    obtain ⟨word, hword⟩ := isValid_iff_firstBytes?.1 h
    rw [show firstBytes? 1 "é\nab".toList = none by decide] at hword
    cases hword
  obtain ⟨hbefore, hwalk, hend⟩ := position_locates "é\nab"
  exact ⟨hfirst, hsecond, hinside,
    hbefore ⟨"Expected item", 2⟩ ⟨"Expected item", 4⟩ hfirst hsecond (by decide),
    (hwalk ⟨"Expected item", 4⟩ ⟨2, 2⟩).2 ⟨hsecond, by decide⟩,
    hend ⟨"Expected item", 1⟩ ⟨"Expected item", 5⟩ hinside (by decide)⟩

end Fault

end Chainlet
