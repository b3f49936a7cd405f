import Chainlet.Source.Cursor

/-!
# Text/Position — the line and column of a byte offset

`Position.after` walks through a text from line one, column one: a line feed starts a new line and
any other character is one column. `positionAt` locates a byte offset of a source; an offset that
lies past the end or inside a character is located at the end (`positionAt_of_not_boundary`).
-/

namespace Chainlet

/-- A place in a text as people count it: lines and columns from one, columns in characters. -/
structure Position where
  line : Nat
  column : Nat
deriving DecidableEq, Repr

namespace Position

/-- The place before the first character. -/
def start : Position := ⟨1, 1⟩

/-- The place after one more character. -/
def step (p : Position) (c : Char) : Position :=
  if c = '\n' then ⟨p.line + 1, 1⟩ else ⟨p.line, p.column + 1⟩

/-- The place after a text. -/
def after (text : List Char) : Position := text.foldl step start

@[simp] theorem after_nil : after [] = start := rfl

theorem after_concat (text : List Char) (c : Char) : after (text ++ [c]) = (after text).step c := by
  simp [after]

/-- **The place after a text, found by looking through the text twice**: the line is one more than there
are line feeds, the column one more than there are characters behind the last of them. -/
theorem after_eq (text : List Char) :
    after text = ⟨text.count '\n' + 1, (text.reverse.takeWhile (· ≠ '\n')).length + 1⟩ := by
  generalize htext : text.reverse = chars
  obtain rfl : text = chars.reverse := by rw [← htext, List.reverse_reverse]
  clear htext
  induction chars with
  | nil => rfl
  | cons c chars ih =>
    rw [List.reverse_cons, after_concat, ih, step, List.count_append, List.count_singleton]
    by_cases hc : c = '\n'
    · rw [if_pos hc, List.takeWhile_cons_of_neg (by simpa using hc)]
      simp [hc]
    · rw [if_neg hc, List.takeWhile_cons_of_pos (by simpa using hc)]
      simp [hc]

end Position

/-- The characters that fill exactly the first `n` bytes of a text, unless `n` lies inside a
character or past the end. -/
def firstBytes? (n : Nat) : List Char → Option (List Char)
  | [] => if n = 0 then some [] else none
  | c :: text =>
    if n = 0 then some []
    else if c.utf8Size ≤ n then (firstBytes? (n - c.utf8Size) text).map (c :: ·)
    else none

theorem firstBytes?_byteLength (word rest : List Char) :
    firstBytes? (byteLength word) (word ++ rest) = some word := by
  induction word with
  | nil => cases rest <;> simp [firstBytes?]
  | cons c word ih =>
    have h : c.utf8Size ≠ 0 := Nat.ne_of_gt c.utf8Size_pos
    simp [firstBytes?, h, ih]

theorem eq_append_of_firstBytes? {n : Nat} {text word : List Char}
    (h : firstBytes? n text = some word) : ∃ rest, text = word ++ rest ∧ byteLength word = n := by
  induction text generalizing n word with
  | nil =>
    simp only [firstBytes?] at h
    split at h <;> simp_all
  | cons c text ih =>
    simp only [firstBytes?] at h
    split at h
    · next hn => simp only [Option.some.injEq] at h; subst h; exact ⟨c :: text, by simp [hn]⟩
    · split at h
      · next hle =>
        obtain ⟨tail, htail, rfl⟩ := Option.map_eq_some_iff.1 h
        obtain ⟨rest, rfl, hlen⟩ := ih htail
        exact ⟨rest, rfl, by simp [hlen]; omega⟩
      · simp at h

/-- The place of a byte offset in a source, at the end when no character starts there. -/
def positionAt (offset : Nat) (source : List Char) : Position :=
  Position.after ((firstBytes? offset source).getD source)

/-- A byte offset at a character is behind the line feeds, and in the line, of the bytes before it. -/
theorem positionAt_eq (offset : Nat) (source : List Char) :
    positionAt offset source =
      let before := (firstBytes? offset source).getD source
      ⟨before.count '\n' + 1, (before.reverse.takeWhile (· ≠ '\n')).length + 1⟩ :=
  Position.after_eq _

/-- **An offset past the end or inside a character counts as the end.** -/
theorem positionAt_of_not_boundary {offset : Nat} {source : List Char}
    (h : firstBytes? offset source = none) : positionAt offset source = Position.after source := by
  simp [positionAt, h]

end Chainlet
