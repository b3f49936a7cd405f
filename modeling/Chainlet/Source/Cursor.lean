import Chainlet.Text.Blank

/-!
# Source/Cursor — how far a reader has got

A `Cursor` holds the characters still to be read and the number of bytes read so far. `Cursor.after`
moves it past a word, `Cursor.textTo` gives back the characters between two cursors, and
`Cursor.textTo_after` says that these are the word read.
-/

namespace Chainlet

/-- The length of a text in the UTF-8 encoding. -/
def byteLength (text : List Char) : Nat := text.foldr (fun c n => c.utf8Size + n) 0

@[simp] theorem byteLength_nil : byteLength [] = 0 := rfl

@[simp] theorem byteLength_cons (c : Char) (text : List Char) :
    byteLength (c :: text) = c.utf8Size + byteLength text := rfl

@[simp] theorem byteLength_append (a b : List Char) :
    byteLength (a ++ b) = byteLength a + byteLength b := by
  induction a with
  | nil => simp
  | cons c a ih => simp [ih, Nat.add_assoc]

theorem byteLength_pos {text : List Char} (h : text ≠ []) : 0 < byteLength text := by
  cases text with
  | nil => exact absurd rfl h
  | cons c text => exact Nat.lt_of_lt_of_le c.utf8Size_pos (Nat.le_add_right ..)

theorem utf8ByteSize_ofList (text : List Char) :
    (String.ofList text).utf8ByteSize = byteLength text := by
  induction text with
  | nil => rfl
  | cons c text ih =>
    rw [String.ofList_cons, String.utf8ByteSize_append, String.utf8ByteSize_singleton, ih,
      byteLength_cons]

theorem utf8ByteSize_eq_byteLength (s : String) : s.utf8ByteSize = byteLength s.toList := by
  rw [← utf8ByteSize_ofList, String.ofList_toList]

/-- `text` and after it the characters that fill the next `n` bytes of `rest`. -/
def appendBytes (text : String) (n : Nat) : (rest : List Char) → String
  | [] => text
  | c :: rest => if n = 0 then text else appendBytes (text.push c) (n - c.utf8Size) rest

theorem appendBytes_byteLength (text : String) (word rest : List Char) :
    appendBytes text (byteLength word) (word ++ rest) = text ++ String.ofList word := by
  induction word generalizing text with
  | nil => cases rest <;> simp [appendBytes]
  | cons c word ih =>
    have h : c.utf8Size + byteLength word ≠ 0 := by have := c.utf8Size_pos; omega
    simp only [List.cons_append, byteLength_cons, appendBytes, h, if_false,
      Nat.add_sub_cancel_left, ih]
    apply String.toList_injective
    simp

/-- A position in a source: what is left of it and the number of bytes before. -/
structure Cursor where
  rest : List Char
  offset : Nat

namespace Cursor

/-- The start of a source. -/
def ofSource (source : String) : Cursor := ⟨source.toList, 0⟩

/-- The cursor once `word` has been read and `rest` is left. -/
def after (c : Cursor) (word rest : List Char) : Cursor := ⟨rest, c.offset + byteLength word⟩

/-- The first cursor at or after this one that does not stand before a blank. -/
def skipBlank (c : Cursor) : Cursor :=
  c.after (c.rest.takeWhile isBlank) (c.rest.dropWhile isBlank)

/-- The text between two cursors of one source. -/
def textTo (start stop : Cursor) : String :=
  appendBytes "" (stop.offset - start.offset) start.rest

/-- **What a cursor has moved past is the word it was moved past.** -/
theorem textTo_after {c : Cursor} {word rest : List Char} (h : c.rest = word ++ rest) :
    c.textTo (c.after word rest) = String.ofList word := by
  simp [textTo, after, h, appendBytes_byteLength]

end Cursor

end Chainlet
