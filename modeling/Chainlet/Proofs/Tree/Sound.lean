import Chainlet.Program.OfTree
import Chainlet.Proofs.Tree.Nodes
import Mathlib.Data.List.Forall2

/-!
# Proofs/Tree/Sound — trees that can be read as they stand

A token is read by its text alone, whatever hangs below it, and any other node by its children.  So a
tree is `sound` if every node of it that is no token, and not below one, has the children of its rule,
and if the tokens among them that stand for values have a text that does.  A tree in which no token has
children is sound if it is laid out all the way down and its tokens have values
(`Tree.laidOut_iff_of_sound`).
-/

namespace Chainlet

/-! ## Sound trees -/

namespace Tree

/-- Whether the text of a token stands for a value, if its rule asks for one. -/
def hasValue (t : Tree) : Bool :=
  match t.rule with
  | .stringLiteral => (unquoted? t.text).isSome
  | .floatLiteral => (floatValue? t.text).isSome
  | .booleanLiteral => t.text == "@true" || t.text == "@false"
  | _ => true

mutual

/-- Whether the nodes that are not below a token have the children of their rules, and the tokens among
them values. -/
def sound : Tree → Bool
  | node rule text start ts =>
    if rule.isToken then (node rule text start ts).hasValue
    else rule.layout.admits ts && soundAll ts

def soundAll : List Tree → Bool
  | [] => true
  | t :: ts => sound t && soundAll ts

end

variable {rule : Rule} {text : String} {start : Option Nat} {ts : List Tree}

theorem soundAll_iff : soundAll ts = true ↔ ∀ t ∈ ts, t.sound = true := by
  induction ts with
  | nil => simp [soundAll]
  | cons t ts ih => rw [soundAll, Bool.and_eq_true, ih, List.forall_mem_cons]

theorem sound_token (h : rule.isToken = true) :
    (node rule text start ts).sound = (node rule text start ts).hasValue := by
  rw [sound, if_pos h]

theorem sound_node (h : rule.isToken = false) :
    (node rule text start ts).sound = true ↔
      rule.layout.admits ts = true ∧ ∀ t ∈ ts, t.sound = true := by
  rw [sound, if_neg (by simp [h]), Bool.and_eq_true, soundAll_iff]

end Tree

/-! ## Places -/

/-- Whether a tree may stand at a place and is sound. -/
def Slot.Accepts (slot : Slot) (t : Tree) : Prop := slot.admits t = true ∧ t.sound = true

theorem Slot.forall₂_accepts_iff {slots : List Slot} {ts : List Tree} :
    List.Forall₂ Slot.Accepts slots ts ↔
      Slot.admitsEach slots ts = true ∧ ∀ t ∈ ts, t.sound = true := by
  induction slots generalizing ts with
  | nil => cases ts <;> simp [admitsEach]
  | cons s ss ih =>
    cases ts with
    | nil => simp [admitsEach]
    | cons t ts =>
      rw [List.forall₂_cons, ih, admitsEach, Bool.and_eq_true, List.forall_mem_cons, Accepts]
      exact and_and_and_comm

/-- A part that may be missing is, or there is one of its rule. -/
theorem Slot.accepts_optional {rule : Rule} {text : String} {start : Option Nat} {ts : List Tree} :
    (Slot.optional rule).Accepts (.node .optional text start ts) ↔
      ts = [] ∨ ∃ u, ts = [u] ∧ (Slot.rule rule).Accepts u := by
  rw [Accepts, Tree.sound_node rfl, admits, Bool.and_eq_true, List.all_eq_true]
  match ts with
  | [] => exact ⟨fun _ => .inl rfl, fun _ => ⟨⟨rfl, List.forall_mem_nil _⟩, rfl, List.forall_mem_nil _⟩⟩
  | [u] =>
    refine ⟨fun h => .inr ⟨u, rfl, h.1.2 u (by simp [Tree.children]), h.2.2 u (by simp)⟩, ?_⟩
    rintro (hnone | ⟨_, hone, hu⟩)
    · cases hnone
    · cases hone
      exact ⟨⟨rfl, List.forall_mem_singleton.2 hu.1⟩, rfl, List.forall_mem_singleton.2 hu.2⟩
  | t :: u :: us =>
    refine ⟨fun h => ?_, fun h => by simp at h⟩
    have hlength : (t :: u :: us).length ≤ 1 := of_decide_eq_true h.2.1
    simp at hlength

namespace Tree

variable {rule : Rule} {text : String} {start : Option Nat} {ts : List Tree} {slot : Slot}
  {slots : List Slot}

theorem isToken_of_layout (h : rule.layout ≠ .leaf) : rule.isToken = false :=
  Bool.eq_false_iff.2 fun htoken => h (rule.layout_eq_leaf_iff.2 htoken)

/-- A node with children at fixed places is sound if they are, each at its own. -/
theorem sound_fixed (h : rule.layout = .fixed slots) :
    (node rule text start ts).sound = true ↔ List.Forall₂ Slot.Accepts slots ts := by
  rw [sound_node (isToken_of_layout (h ▸ nofun)), h, Layout.admits, Slot.forall₂_accepts_iff]

/-- A node with any number of children of one kind is sound if they all are. -/
theorem sound_many (h : rule.layout = .many slot) :
    (node rule text start ts).sound = true ↔ ∀ t ∈ ts, slot.Accepts t := by
  rw [sound_node (isToken_of_layout (h ▸ nofun)), h, Layout.admits, List.all_eq_true]
  exact forall₂_and.symm

theorem sound_some (h : rule.layout = .some slot) :
    (node rule text start ts).sound = true ↔ ts ≠ [] ∧ ∀ t ∈ ts, slot.Accepts t := by
  rw [sound_node (isToken_of_layout (h ▸ nofun)), h, Layout.admits, Bool.and_eq_true,
    List.all_eq_true, Bool.not_eq_true', List.isEmpty_eq_false_iff, and_assoc]
  exact and_congr_right fun _ => forall₂_and.symm

/-! ## What hangs below the tokens -/

/-- **A sound tree is laid out all the way down if nothing hangs below its tokens.** -/
theorem laidOut_iff_of_sound {t : Tree} (h : t.sound = true) :
    (∀ u ∈ t.nodes, u.laidOut = true) ↔ ∀ u ∈ t.nodes, u.rule.isToken = true → u.children = [] := by
  refine ⟨fun hall u hu htoken => ?_, fun hbare => ?_⟩
  · have hlaid := hall u hu
    rw [laidOut, Rule.layout_eq_leaf_iff u.rule |>.2 htoken] at hlaid
    exact List.isEmpty_iff.1 hlaid
  · induction t using Tree.induction with
    | h rule text start ts ih =>
      rw [forall_mem_nodes] at hbare ⊢
      cases htoken : rule.isToken with
      | true =>
        obtain rfl : ts = [] := hbare.1 htoken
        refine ⟨?_, List.forall_mem_nil _⟩
        rw [laidOut, Tree.rule, rule.layout_eq_leaf_iff.2 htoken]
        rfl
      | false =>
        obtain ⟨hlayout, hsound⟩ := (sound_node htoken).1 h
        exact ⟨hlayout, fun t ht => ih t ht (hsound t ht) (hbare.2 t ht)⟩

end Tree

end Chainlet
