import Chainlet.Proofs.Tree.Layout

/-!
# Proofs/Tree/Nodes — the nodes of a tree, and the tokens among them

`Tree.nodes` lists a tree from the root downwards, each node before its children; these are the rows
in which a tree is reported (`rows_eq_nodes`).  The tokens are the nodes whose rule has a form of its
own: the words of the source that carry a meaning, in the order in which they stand there.
-/

namespace Chainlet

/-- Whether the nodes of a rule are words of the source. -/
def Rule.isToken (r : Rule) : Bool := r.form?.isSome

namespace Tree

/-! ## Nodes -/

mutual

/-- The nodes of a tree, each before its children. -/
def nodes : Tree → List Tree
  | node r text start ts => node r text start ts :: nodesAll ts

/-- The nodes of a list of trees, one tree after the other. -/
def nodesAll : List Tree → List Tree
  | [] => []
  | t :: ts => nodes t ++ nodesAll ts

end

variable {rule : Rule} {text : String} {start : Option Nat} {u : Tree} {ts : List Tree}

theorem mem_nodesAll : u ∈ nodesAll ts ↔ ∃ t ∈ ts, u ∈ t.nodes := by
  induction ts with
  | nil => simp [nodesAll]
  | cons t ts ih => simp [nodesAll, ih]

/-- What holds of every node of a tree holds of the root and of every node of its children. -/
theorem forall_mem_nodes {P : Tree → Prop} :
    (∀ u ∈ (node rule text start ts).nodes, P u) ↔
      P (node rule text start ts) ∧ ∀ t ∈ ts, ∀ u ∈ t.nodes, P u := by
  rw [nodes, List.forall_mem_cons]
  refine and_congr_right fun _ => ⟨fun h t ht u hu => h u (mem_nodesAll.2 ⟨t, ht, hu⟩), ?_⟩
  intro h u hu
  obtain ⟨t, ht, hu⟩ := mem_nodesAll.1 hu
  exact h t ht u hu

theorem mem_nodes_self (t : Tree) : t ∈ t.nodes := by
  cases t
  exact (forall_mem_nodes.1 fun _ hu => hu).1

/-- The nodes of a child are nodes of the tree. -/
theorem mem_nodes_of_mem_children {t u v : Tree} (hu : u ∈ t.children) (hv : v ∈ u.nodes) :
    v ∈ t.nodes := by
  cases t
  exact (forall_mem_nodes.1 fun _ hw => hw).2 u hu v hv

/-- The leaves of a tree that conforms are words of their rules. -/
theorem spelt_of_conforms {t : Tree} (h : t.conforms = true) : ∀ u ∈ t.nodes, u.spelt = true := by
  induction t using Tree.induction with
  | h rule text start ts ih =>
    obtain ⟨-, hspelt, hall⟩ := conforms_iff.1 h
    exact forall_mem_nodes.2 ⟨hspelt, fun t ht => ih t ht (hall t ht)⟩

mutual

/-- **The rows of a tree are its nodes in order.** -/
theorem rows_eq_nodes (depth : Nat) (more : List (Nat × Rule × Span)) :
    ∀ t : Tree, (t.rows depth more).map Prod.snd
      = t.nodes.map (fun u => (u.rule, u.span)) ++ more.map Prod.snd
  | node r text start ts => by
    rw [rows, nodes, List.map_cons, rowsAll_eq_nodesAll (depth + 1) more ts]
    rfl

theorem rowsAll_eq_nodesAll (depth : Nat) (more : List (Nat × Rule × Span)) :
    ∀ ts : List Tree, (rowsAll depth ts more).map Prod.snd
      = (nodesAll ts).map (fun u => (u.rule, u.span)) ++ more.map Prod.snd
  | [] => rfl
  | t :: ts => by
    rw [rowsAll, nodesAll, rows_eq_nodes depth _ t, rowsAll_eq_nodesAll depth more ts,
      List.map_append, List.append_assoc]

end

/-! ## Tokens -/

/-- The tokens of a tree, in order. -/
def tokens (t : Tree) : List Tree := t.nodes.filter (·.rule.isToken)

/-- The tokens of a list of trees, one tree after the other. -/
def tokensAll (ts : List Tree) : List Tree := (nodesAll ts).filter (·.rule.isToken)

@[simp] theorem tokensAll_nil : tokensAll [] = [] := rfl

@[simp] theorem tokensAll_cons (t : Tree) (ts : List Tree) :
    tokensAll (t :: ts) = t.tokens ++ tokensAll ts :=
  List.filter_append ..

theorem tokens_leaf (h : rule.isToken = true) :
    (node rule text start []).tokens = [node rule text start []] :=
  List.filter_cons_of_pos h

theorem tokens_node (h : rule.isToken = false) :
    (node rule text start ts).tokens = tokensAll ts :=
  List.filter_cons_of_neg (by simpa [Tree.rule] using h)

end Tree

end Chainlet
