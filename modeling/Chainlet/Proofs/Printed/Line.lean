import Chainlet.Module.Basic
import Chainlet.Proofs.Binary32.Numeral

/-!
# Proofs/Printed/Line — the line of an instruction

The first line of an instruction is a word, and an operand behind a blank (`Instr.head_eq`).  The word
names the instruction and the operand gives the rest of it, so that **the line tells the instruction**,
a block without what stands in it (`Instr.ofLine?_head`).
-/

namespace Chainlet

/-- A name without blanks, as every name made of letters, digits, underscores and points is. -/
def isWord (name : String) : Bool := name.toList.all fun c => c != ' ' && c != '\n'

/-- A text without a line break. -/
def isLine (text : List Char) : Bool := text.all (· != '\n')

theorem isLine_append (a b : List Char) : isLine (a ++ b) = (isLine a && isLine b) := List.all_append

theorem isLine_of_isWord {name : String} (h : isWord name = true) : isLine name.toList = true :=
  List.all_eq_true.2 fun c hc => ((Bool.and_eq_true _ _).mp (List.all_eq_true.1 h c hc)).2

theorem all_ne_space_of_isWord {name : String} (h : isWord name = true) :
    name.toList.all (· != ' ') = true :=
  List.all_eq_true.2 fun c hc => ((Bool.and_eq_true _ _).mp (List.all_eq_true.1 h c hc)).1

/-- **A name is read off the front of what follows it.** -/
theorem append_inj_of_isWord {a b : String} {x y : List Char} (ha : isWord a = true)
    (hb : isWord b = true) (h : a.toList ++ x = b.toList ++ y) (hx : EndsRun (· != ' ') x)
    (hy : EndsRun (· != ' ') y) : a = b ∧ x = y := by
  obtain ⟨hname, hrest⟩ := append_inj_of_run (all_ne_space_of_isWord ha) (all_ne_space_of_isWord hb)
    h hx hy
  exact ⟨String.toList_inj.1 hname, hrest⟩

/-! ## Numbers -/

theorem isLine_digits (n : Nat) : isLine (Nat.toDigits 10 n) = true := by
  have hdigits := toDigits_isDigit n
  unfold isLine
  rw [List.all_eq_true] at hdigits ⊢
  exact fun c hc => bne_iff_ne.2 (ne_of_isDigit (hdigits c hc) rfl)

theorem isLine_moduleNumeral (x : Binary32) : isLine (x.text moduleNumeral).toList = true := by
  have hmarks := @Binary32.text_isMark moduleNumeral rfl rfl rfl x
  unfold isLine
  rw [List.all_eq_true] at hmarks ⊢
  intro c hc
  rw [bne_iff_ne]
  rintro rfl
  exact absurd (hmarks _ hc) (by decide)

/-- **The text of a number in a module is read as the number**, infinities included. -/
theorem Binary32.ofText?_moduleNumeral {x : Binary32} (h : x.isNaN = false) :
    ofText? (x.text moduleNumeral).toList = some x := by
  obtain hfinite | hx := isFinite_or_eq h
  · exact ofText?_text moduleNumeral hfinite
  · rw [hx]
    cases x.isNegative <;> decide

namespace Instr

/-! ## Instructions whose line can be read -/

mutual

/-- Whether all names in an instruction are without blanks and all its constants are numbers. -/
def legible : Instr → Bool
  | f32Const value => !value.isNaN
  | globalGet name | globalSet name | localGet name | localTee name | call name => isWord name
  | block body => legibleAll body
  | i32Const _ | arithmetic _ _ | store _ _ => true

/-- Whether all instructions in code are legible. -/
def legibleAll : List Instr → Bool
  | [] => true
  | i :: is => i.legible && legibleAll is

end

/-! ## Words and operands -/

/-- The word that names an instruction. -/
def word : Instr → String
  | i32Const _ => "i32.const"
  | f32Const _ => "f32.const"
  | arithmetic type operation => type.label ++ "." ++ operation.label type
  | globalGet _ => "global.get"
  | globalSet _ => "global.set"
  | localGet _ => "local.get"
  | localTee _ => "local.tee"
  | call _ => "call"
  | store type _ => type.label ++ ".store"
  | block _ => "(block"

/-- What stands behind the word. -/
def operand : Instr → List Char
  | i32Const value => ' ' :: Nat.toDigits 10 value.toNat
  | f32Const value => ' ' :: (value.text moduleNumeral).toList
  | globalGet name | globalSet name | localGet name | localTee name | call name =>
    ' ' :: '$' :: name.toList
  | store _ offset => ' ' :: ("offset=".toList ++ Nat.toDigits 10 offset.toNat)
  | arithmetic _ _ | block _ => []

theorem head_eq (i : Instr) : i.head.toList = i.word.toList ++ i.operand := by
  cases i with
  | i32Const value =>
    rw [head, String.toList_append, toList_toString, word, operand, List.append_cons]
    rfl
  | f32Const value =>
    rw [head, String.toList_append, word, operand, List.append_cons]
    rfl
  | store type offset =>
    rw [head, String.toList_append, toList_toString, word, operand, ← List.cons_append,
      ← List.append_assoc]
    cases type <;> rfl
  | arithmetic type operation => exact (List.append_nil _).symm
  | block body => exact (List.append_nil _).symm
  | _ => simp [head, word, operand]

theorem isWord_word (i : Instr) : isWord i.word = true := by
  cases i with
  | arithmetic type operation => cases type <;> cases operation <;> decide
  | store type offset => cases type <;> simp only [word] <;> decide
  | _ => simp only [word]; rfl

theorem operand_ends (i : Instr) : EndsRun (· != ' ') i.operand := by
  cases i <;> rfl

theorem isLine_operand {i : Instr} (h : i.legible = true) : isLine i.operand = true := by
  cases i with
  | i32Const value => exact isLine_digits _
  | f32Const value => exact isLine_moduleNumeral value
  | store type offset => exact (isLine_append _ _).trans (isLine_digits _)
  | arithmetic type operation => rfl
  | block body => rfl
  | _ => exact isLine_of_isWord h

/-- The first line of an instruction is a line. -/
theorem isLine_head {i : Instr} (h : i.legible = true) : isLine i.head.toList = true := by
  rw [head_eq, isLine_append, isLine_of_isWord i.isWord_word, isLine_operand h]
  rfl

/-! ## Reading a line -/

/-- The instruction without what stands in it. -/
def shell : Instr → Instr
  | block _ => block []
  | i => i

/-- The instruction of a word and its operand. -/
def ofWord? (operand : List Char) : String → Option Instr
  | "i32.const" => some (.i32Const (UInt32.ofNat (Binary32.digitsValue (operand.drop 1))))
  | "f32.const" => (Binary32.ofText? (operand.drop 1)).map .f32Const
  | "i32.add" => some (.arithmetic .i32 .add)
  | "i32.sub" => some (.arithmetic .i32 .sub)
  | "i32.mul" => some (.arithmetic .i32 .mul)
  | "i32.div_s" => some (.arithmetic .i32 .div)
  | "f32.add" => some (.arithmetic .f32 .add)
  | "f32.sub" => some (.arithmetic .f32 .sub)
  | "f32.mul" => some (.arithmetic .f32 .mul)
  | "f32.div" => some (.arithmetic .f32 .div)
  | "global.get" => some (.globalGet (String.ofList (operand.drop 2)))
  | "global.set" => some (.globalSet (String.ofList (operand.drop 2)))
  | "local.get" => some (.localGet (String.ofList (operand.drop 2)))
  | "local.tee" => some (.localTee (String.ofList (operand.drop 2)))
  | "call" => some (.call (String.ofList (operand.drop 2)))
  | "i32.store" => some (.store .i32 (UInt32.ofNat (Binary32.digitsValue (operand.drop 8))))
  | "f32.store" => some (.store .f32 (UInt32.ofNat (Binary32.digitsValue (operand.drop 8))))
  | "(block" => some (.block [])
  | _ => none

/-- The instruction of a line. -/
def ofLine? (line : List Char) : Option Instr :=
  ofWord? (line.dropWhile (· != ' ')) (String.ofList (line.takeWhile (· != ' ')))

theorem ofWord?_word {i : Instr} (h : i.legible = true) : ofWord? i.operand i.word = some i.shell := by
  cases i with
  | i32Const value =>
    have hvalue := digitsValue_toDigits value.toNat
    exact congrArg (fun n => some (i32Const n)) ((congrArg UInt32.ofNat hvalue).trans UInt32.ofNat_toNat)
  | f32Const value =>
    have hvalue := Binary32.ofText?_moduleNumeral ((Bool.not_eq_true' _).mp h)
    exact congrArg (Option.map f32Const) hvalue
  | arithmetic type operation => cases type <;> cases operation <;> rfl
  | store type offset =>
    have hvalue := digitsValue_toDigits offset.toNat
    have hoffset := (congrArg UInt32.ofNat hvalue).trans UInt32.ofNat_toNat
    cases type
    · exact congrArg (fun n => some (store .i32 n)) hoffset
    · exact congrArg (fun n => some (store .f32 n)) hoffset
  | block body => rfl
  | globalGet name => exact congrArg (fun s => some (globalGet s)) String.ofList_toList
  | globalSet name => exact congrArg (fun s => some (globalSet s)) String.ofList_toList
  | localGet name => exact congrArg (fun s => some (localGet s)) String.ofList_toList
  | localTee name => exact congrArg (fun s => some (localTee s)) String.ofList_toList
  | call name => exact congrArg (fun s => some (call s)) String.ofList_toList

/-- **The first line of an instruction tells the instruction**, up to what stands in it. -/
theorem ofLine?_head {i : Instr} (h : i.legible = true) : ofLine? i.head.toList = some i.shell := by
  obtain ⟨htake, hdrop⟩ := takeWhile_run (all_ne_space_of_isWord i.isWord_word) i.operand_ends
  rw [ofLine?, head_eq, htake, hdrop, String.ofList_toList, ofWord?_word h]

theorem shell_eq_of_head {i j : Instr} (hi : i.legible = true) (hj : j.legible = true)
    (h : i.head = j.head) : i.shell = j.shell := by
  have hread := ofLine?_head hi
  rw [h, ofLine?_head hj] at hread
  exact (Option.some.inj hread).symm

end Instr

end Chainlet
