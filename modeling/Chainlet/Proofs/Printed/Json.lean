import Chainlet.Proofs.Binary32.Numeral
import Chainlet.Text.Json

/-!
# Proofs/Printed/Json — what the text of a JSON value tells

A JSON value is not told by its text alone, since the text of a number may be `null`.  What two values
have to have in common for their texts to be the same is a statement about them: the values `Tell` it
if their texts are the same, in front of anything that cannot go on with a word, only if it holds.
Strings tell that they are equal (`Json.Tells.string`), and **an object or an array tells what each of its
parts tells** (`Json.Tells.object`, `Json.Tells.array`).
-/

namespace Chainlet

namespace Json

/-! ## Strings -/

/-- The first character of the text of a string, and what follows it. -/
def unescape : List Char → Option (Char × List Char)
  | '\\' :: '"' :: rest => some ('"', rest)
  | '\\' :: '\\' :: rest => some ('\\', rest)
  | '\\' :: 'b' :: rest => some ('\x08', rest)
  | '\\' :: 'f' :: rest => some ('\x0c', rest)
  | '\\' :: 'n' :: rest => some ('\n', rest)
  | '\\' :: 'r' :: rest => some ('\r', rest)
  | '\\' :: 't' :: rest => some ('\t', rest)
  | '\\' :: 'u' :: a :: b :: c :: d :: rest =>
    ((List.range 0x20).find? fun n => fourDigits n == [a, b, c, d]).map (Char.ofNat ·, rest)
  | c :: rest => some (c, rest)
  | [] => none

/-- A character that is no backslash stands for itself. -/
theorem unescape_cons {c : Char} (h : c ≠ '\\') (rest : List Char) :
    unescape (c :: rest) = some (c, rest) := by
  unfold unescape
  split <;> simp_all

/-- The number of a control character is read back from its four digits. -/
theorem find?_fourDigits : ∀ n < 0x20,
    ((List.range 0x20).find? fun k => fourDigits k == fourDigits n) = some n := by
  decide

/-- What a character is escaped as is read back as the character. -/
theorem unescape_escape (c : Char) (rest : List Char) : unescape (escape c ++ rest) = some (c, rest) := by
  unfold escape
  split
  case h_8 hback _ _ _ _ _ =>
    split
    · next hlt =>
      have hread := congrArg (Option.map (Char.ofNat ·, rest)) (find?_fourDigits c.toNat hlt)
      rw [Option.map_some, Char.ofNat_toNat] at hread
      exact hread
    · exact unescape_cons hback rest
  all_goals rfl

/-- Escaped characters can be told apart one behind the other. -/
theorem prefixCode_escape : PrefixCode (fun _ => True) escape :=
  .of_read fun c _ rest => unescape_escape c rest

/-- The text of a string ends at its second quote. -/
theorem stops_quote (rest : List Char) : Stops (fun _ => True) escape ('"' :: rest) := by
  intro c _ y h
  have hread := unescape_escape c y
  rw [h, unescape_cons (by decide), Option.some.injEq, Prod.mk.injEq] at hread
  obtain ⟨rfl, -⟩ := hread
  exact absurd (List.cons.inj h).1 (by decide)

/-- **A string is read off the front of what follows it.** -/
theorem writeString_inj {s t : String} {x y : List Char} (h : writeString s x = writeString t y) :
    s = t ∧ x = y := by
  obtain ⟨hchars, hrest⟩ := prefixCode_escape.flatMap (stops_quote x) (stops_quote y)
    (fun _ _ => trivial) (fun _ _ => trivial) (List.cons.inj h).2
  exact ⟨String.toList_inj.1 hchars, (List.cons.inj hrest).2⟩

/-! ## Texts that tell something -/

/-- Whether the texts of two values are the same, whatever follows them, only if a statement holds. -/
def Tells (v w : Json) (p : Prop) : Prop :=
  ∀ ⦃depth : Nat⦄ ⦃x y : List Char⦄, EndsRun Numeral.isMark x → EndsRun Numeral.isMark y →
    write depth v x = write depth w y → p ∧ x = y

/-- Whether the texts of two lists of elements are the same only if a statement holds. -/
def ElementsTell (es fs : List Json) (p : Prop) : Prop :=
  ∀ ⦃depth : Nat⦄ ⦃x y : List Char⦄,
    writeElements depth es ('\n' :: x) = writeElements depth fs ('\n' :: y) → p ∧ x = y

/-- Whether the texts of two lists of members are the same only if a statement holds. -/
def MembersTell (ms ns : List (String × Json)) (p : Prop) : Prop :=
  ∀ ⦃depth : Nat⦄ ⦃x y : List Char⦄,
    writeMembers depth ms ('\n' :: x) = writeMembers depth ns ('\n' :: y) → p ∧ x = y

theorem newLine_inj {depth : Nat} {x y : List Char} (h : newLine depth x = newLine depth y) : x = y :=
  List.append_cancel_left (List.cons.inj h).2

section Tells

variable {v w : Json} {p q : Prop}

/-- What tells a statement tells all that follows from it. -/
theorem Tells.imp (h : v.Tells w p) (hpq : p → q) : v.Tells w q :=
  fun _ _ _ hx hy heq => (h hx hy heq).imp_left hpq

/-- Whole texts that are the same have the statement hold that they tell. -/
theorem Tells.text_inj (h : v.Tells w p) (heq : v.text = w.text) : p :=
  (@h 0 [] [] rfl rfl (String.ofList_injective heq)).1

/-! ## Atoms -/

/-- The text of a string tells the string. -/
theorem Tells.string (s t : String) : (Json.string s).Tells (.string t) (s = t) :=
  fun _ _ _ _ _ h => writeString_inj h

/-- The text of a number tells its numeral, if nothing of a numeral follows. -/
theorem Tells.number {s t : String} (hs : s.toList.all Numeral.isMark = true)
    (ht : t.toList.all Numeral.isMark = true) : (Json.number s).Tells (.number t) (s = t) := by
  intro depth x y hx hy h
  obtain ⟨hst, hxy⟩ := append_inj_of_run hs ht h hx hy
  exact ⟨String.toList_inj.1 hst, hxy⟩

/-- The text of a truth value tells it. -/
theorem Tells.bool (b c : Bool) : (Json.bool b).Tells (.bool c) (b = c) := by
  intro depth x y _ _ h
  cases b <;> cases c <;> simp [write] at h ⊢
  · exact h
  · exact h

/-- The text of a natural number tells it. -/
theorem Tells.nat (m n : Nat) : (Json.nat m).Tells (.nat n) (m = n) := by
  have hmarks : ∀ n : Nat, (toString n).toList.all Numeral.isMark = true := by
    intro n
    rw [toList_toString]
    exact Numeral.all_isMark (toDigits_isDigit n)
  exact (Tells.number (hmarks m) (hmarks n)).imp toString_inj.1

/-! ## Arrays -/

theorem ElementsTell.imp {es fs : List Json} (h : ElementsTell es fs p) (hpq : p → q) :
    ElementsTell es fs q :=
  fun _ _ _ heq => (h heq).imp_left hpq

theorem ElementsTell.nil : ElementsTell [] [] True :=
  fun _ _ _ h => ⟨trivial, (List.cons.inj h).2⟩

/-- The texts of an empty list and of one with an element differ: a bracket or a line break follows. -/
theorem ElementsTell.nil_cons {f : Json} {fs : List Json} : ElementsTell [] (f :: fs) p :=
  fun _ _ _ h => absurd (List.cons.inj h).1 (by decide)

theorem ElementsTell.cons_nil {e : Json} {es : List Json} : ElementsTell (e :: es) [] p :=
  fun _ _ _ h => absurd (List.cons.inj h).1 (by decide)

/-- A comma or a line break stands behind each element, and ends a numeral. -/
theorem endsRun_writeElements (depth : Nat) (es : List Json) (x : List Char) :
    EndsRun Numeral.isMark (writeElements depth es ('\n' :: x)) := by
  cases es <;> rfl

/-- The texts of two lists tell what their first elements and their rests do. -/
theorem ElementsTell.cons {es fs : List Json} (h : v.Tells w p) (hrest : ElementsTell es fs q) :
    ElementsTell (v :: es) (w :: fs) (p ∧ q) := by
  intro depth x y heq
  obtain ⟨hp, heq⟩ := h (endsRun_writeElements depth es x) (endsRun_writeElements depth fs y)
    (newLine_inj (List.cons.inj heq).2)
  obtain ⟨hq, hxy⟩ := hrest heq
  exact ⟨⟨hp, hq⟩, hxy⟩

/-- **An array tells what its elements tell.** -/
theorem Tells.array {es fs : List Json} (h : ElementsTell es fs p) :
    (Json.array es).Tells (.array fs) p := by
  intro depth x y _ _ heq
  match es, fs with
  | [], [] => exact ⟨(@h 0 [] [] rfl).1, (List.cons.inj (List.cons.inj heq).2).2⟩
  | [], f :: fs => exact absurd (List.cons.inj (List.cons.inj heq).2).1 (by decide)
  | e :: es, [] => exact absurd (List.cons.inj (List.cons.inj heq).2).1 (by decide)
  | e :: es, f :: fs =>
    obtain ⟨hp, hxy⟩ := h (congrArg (',' :: ·) (List.cons.inj heq).2)
    exact ⟨hp, (List.cons.inj (List.append_cancel_left hxy)).2⟩

/-- Lists of values that are written alike. -/
theorem ElementsTell.map {α : Type} {encode : α → Json}
    (h : ∀ a b, (encode a).Tells (encode b) (a = b)) : (as bs : List α) →
    ElementsTell (as.map encode) (bs.map encode) (as = bs)
  | [], [] => ElementsTell.nil.imp fun _ => rfl
  | [], _ :: _ => .nil_cons
  | _ :: _, [] => .cons_nil
  | a :: as, b :: bs =>
    (ElementsTell.cons (h a b) (ElementsTell.map h as bs)).imp (by rintro ⟨rfl, rfl⟩; rfl)

/-! ## Objects -/

theorem MembersTell.imp {ms ns : List (String × Json)} (h : MembersTell ms ns p) (hpq : p → q) :
    MembersTell ms ns q :=
  fun _ _ _ heq => (h heq).imp_left hpq

theorem MembersTell.nil : MembersTell [] [] True :=
  fun _ _ _ h => ⟨trivial, (List.cons.inj h).2⟩

/-- A comma or a line break stands behind each member, and ends a numeral. -/
theorem endsRun_writeMembers (depth : Nat) (ms : List (String × Json)) (x : List Char) :
    EndsRun Numeral.isMark (writeMembers depth ms ('\n' :: x)) := by
  cases ms <;> rfl

/-- The texts of two members of one name tell what their values do. -/
theorem MembersTell.cons {name : String} {ms ns : List (String × Json)} (h : v.Tells w p)
    (hrest : MembersTell ms ns q) : MembersTell ((name, v) :: ms) ((name, w) :: ns) (p ∧ q) := by
  intro depth x y heq
  obtain ⟨-, heq⟩ := writeString_inj (newLine_inj (List.cons.inj heq).2)
  obtain ⟨hp, heq⟩ := h (endsRun_writeMembers depth ms x) (endsRun_writeMembers depth ns y)
    (List.cons.inj (List.cons.inj heq).2).2
  obtain ⟨hq, hxy⟩ := hrest heq
  exact ⟨⟨hp, hq⟩, hxy⟩

/-- **An object tells what its members tell.** -/
theorem Tells.object {ms ns : List (String × Json)} (h : MembersTell ms ns p) :
    (Json.object ms).Tells (.object ns) p := by
  intro depth x y _ _ heq
  match ms, ns with
  | [], [] => exact ⟨(@h 0 [] [] rfl).1, (List.cons.inj (List.cons.inj heq).2).2⟩
  | [], (_, _) :: _ => exact absurd (List.cons.inj (List.cons.inj heq).2).1 (by decide)
  | (_, _) :: _, [] => exact absurd (List.cons.inj (List.cons.inj heq).2).1 (by decide)
  | (_, _) :: _, (_, _) :: _ =>
    obtain ⟨hp, hxy⟩ := h (congrArg (',' :: ·) (List.cons.inj heq).2)
    exact ⟨hp, (List.cons.inj (List.append_cancel_left hxy)).2⟩

/-- A tag that two values share tells nothing more. -/
theorem Tells.tagged {name : String} (h : v.Tells w p) :
    (Json.tagged name v).Tells (.tagged name w) p :=
  (Tells.object (.cons h .nil)).imp And.left

/-- Two alternatives are never written alike. -/
theorem Tells.tagged_ne {name name' : String} (hne : name ≠ name') :
    (Json.tagged name v).Tells (.tagged name' w) p := by
  intro depth x y _ _ heq
  obtain ⟨rfl, -⟩ := writeString_inj (newLine_inj (List.cons.inj heq).2)
  exact absurd rfl hne

/-- The text of null is not that of an object. -/
theorem write_null_ne (depth : Nat) (ms : List (String × Json)) (x y : List Char) :
    write depth .null x ≠ write depth (.object ms) y := by
  match ms with
  | [] => exact fun heq => absurd (List.cons.inj heq).1 (by decide)
  | (_, _) :: _ => exact fun heq => absurd (List.cons.inj heq).1 (by decide)

theorem Tells.null : Json.null.Tells .null True :=
  fun _ _ _ _ _ heq => ⟨trivial, List.append_cancel_left heq⟩

/-- What is null is told from an object, so everything follows if the texts are the same. -/
theorem Tells.null_object {ms : List (String × Json)} : Json.null.Tells (.object ms) p :=
  fun _ _ _ _ _ heq => (write_null_ne _ _ _ _ heq).elim

theorem Tells.object_null {ms : List (String × Json)} : (Json.object ms).Tells .null p :=
  fun _ _ _ _ _ heq => (write_null_ne _ _ _ _ heq.symm).elim

/-- Options of values that are written as objects. -/
theorem Tells.option {α : Type} {encode : α → Json} {members : α → List (String × Json)}
    (hobject : ∀ a, encode a = .object (members a))
    (h : ∀ a b, (encode a).Tells (encode b) (a = b)) : (a b : Option α) →
    (ofOption encode a).Tells (ofOption encode b) (a = b)
  | none, none => Tells.null.imp fun _ => rfl
  | none, some b => by
    rw [ofOption, ofOption, hobject]
    exact .null_object
  | some a, none => by
    rw [ofOption, ofOption, hobject]
    exact .object_null
  | some a, some b => Tells.imp (h a b) (congrArg some)

end Tells

end Json

end Chainlet
