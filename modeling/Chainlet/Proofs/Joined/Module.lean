import Chainlet.Proofs.Code.Spans
import Chainlet.Proofs.Joined.Program

/-!
# Proofs/Joined/Module — the module of two sources with a line break between them

The units of a program are made element by element and spans leave no trace in them, so **two sources
may be compiled one by one** (`separate_compilation`): the joined source has the units of the first
one and then those of the second one, and is refused for the first of the two that is refused.
-/

namespace Chainlet

/-! ## The same nodes further on -/

mutual

theorem Tree.same_shift (k : Nat) : ∀ t : Tree, (t.shift k).same t = true
  | .node rule text start ts => by
    rw [shift, same, sameAll_shift k ts, beq_self_eq_true, beq_self_eq_true]
    rfl

theorem Tree.sameAll_shift (k : Nat) : ∀ ts : List Tree, Tree.sameAll (shiftAll k ts) ts = true
  | [] => by rw [shiftAll, Tree.sameAll]
  | t :: ts => by rw [shiftAll, Tree.sameAll, Tree.same_shift k t, Tree.sameAll_shift k ts]; rfl

end

theorem Tree.sameAll_append {ts ts' us us' : List Tree} (h : Tree.sameAll ts ts' = true)
    (h' : Tree.sameAll us us' = true) : Tree.sameAll (ts ++ us) (ts' ++ us') = true := by
  induction ts generalizing ts' with
  | nil =>
    cases ts' with
    | nil => exact h'
    | cons t ts' => simp [Tree.sameAll] at h
  | cons t ts ih =>
    cases ts' with
    | nil => simp [Tree.sameAll] at h
    | cons t' ts' =>
      rw [Tree.sameAll, Bool.and_eq_true] at h
      rw [List.cons_append, List.cons_append, Tree.sameAll, h.1, ih h.2]
      rfl

/-- Elements further on are equal to what they were. -/
theorem Tree.sameAll_joined (k : Nat) (ts us : List Tree) :
    Tree.sameAll (ts ++ us.map (Tree.shift k)) (ts ++ us) = true := by
  have hself := Tree.sameAll_shift 0 ts
  rw [shiftAll_eq_map, List.map_congr_left fun t _ => t.shift_zero, List.map_id'] at hself
  have hshift := Tree.sameAll_shift k us
  rw [shiftAll_eq_map] at hshift
  exact Tree.sameAll_append hself hshift

/-! ## Units -/

/-- **The units of elements in a row**; the first element that is refused decides. -/
theorem unitsOf_append (o : Options) (es es' : List Element) :
    unitsOf o (es ++ es') = (do
      let units ← unitsOf o es
      let units' ← unitsOf o es'
      pure (units ++ units')) := by
  induction es with
  | nil =>
    rw [List.nil_append, unitsOf]
    cases unitsOf o es' <;> rfl
  | cons e es ih =>
    rw [List.cons_append, unitsOf, unitsOf, ih]
    cases e.unit? o with
    | error r => rfl
    | ok unit? =>
      rw [ok_bind, ok_bind]
      cases unitsOf o es with
      | error r => rfl
      | ok units =>
        rw [ok_bind]
        cases unitsOf o es' with
        | error r => rfl
        | ok units' => simp

/-- What the module of a program is made of. -/
theorem Program.module_eq (o : Options) (p : Program) :
    p.module o = (unitsOf o p.elements).map (Module.mk o.memoryPages o.heapGlobal o.heapBase) := by
  rw [module]
  cases unitsOf o p.elements <;> rfl

/-- **The module of elements in a row.** -/
theorem Program.module_append (o : Options) {p q r : Program} {k : Nat}
    (h : r.elements = p.elements ++ q.elements.map (Element.shift k)) :
    match p.module o, q.module o with
    | .ok m, .ok n => r.module o = .ok { m with units := m.units ++ n.units } ∧ n.header = m.header
    | .error refusal, _ => r.module o = .error refusal
    | .ok _, .error refusal => r.module o = .error refusal := by
  have hunits : unitsOf o (q.elements.map (Element.shift k)) = unitsOf o q.elements :=
    unitsOf_mapSpans _ o q.elements
  rw [p.module_eq, q.module_eq, r.module_eq, h, unitsOf_append, hunits]
  cases unitsOf o p.elements with
  | error refusal => rfl
  | ok units =>
    cases unitsOf o q.elements with
    | error refusal => rfl
    | ok units' => exact ⟨rfl, rfl⟩

/-! ## Separate compilation -/

/-- **Two sources may be compiled one by one.**  If all of the first source can be read, then the
source joined of the two has the elements of both, with the spans of the second part further on by the
bytes in front of it; or it is unreadable just where the second source is.  Whatever the options, it
has the units of the first source and then those of the second one, between the header and the closing
line that are common to all of them, or it is refused as the first of the two that is refused. -/
theorem separate_compilation {first : String} {t : Tree} (hfirst : Tree.ofSource first = .ok t)
    (second : String) :
    match Tree.ofSource second with
    | .error e => Tree.ofSource (joined first second)
        = .error { e with offset := first.utf8ByteSize + 1 + e.offset }
    | .ok u => ∃ v p q r,
        Tree.ofSource (joined first second) = .ok v ∧
        v.children = t.children ++ u.children.map (Tree.shift (first.utf8ByteSize + 1)) ∧
        Tree.sameAll v.children (t.children ++ u.children) = true ∧
        Program.ofSource first = .ok p ∧ Program.ofSource second = .ok q ∧
        Program.ofSource (joined first second) = .ok r ∧
        r.elements = p.elements ++ q.elements.map (Element.shift (first.utf8ByteSize + 1)) ∧
        ∀ o : Options, match p.module o, q.module o with
          | .ok m, .ok n => ∃ w, r.module o = .ok w ∧ w.units = m.units ++ n.units ∧
              w.header = m.header ∧ w.header = n.header ∧
              w.text = joinLines (w.header ++ (m.units.flatMap ModuleUnit.lines ++
                n.units.flatMap ModuleUnit.lines) ++ [")"])
          | .error refusal, _ => r.module o = .error refusal
          | .ok _, .error refusal => r.module o = .error refusal := by
  have htree := Tree.ofSource_joined hfirst second
  cases hsecond : Tree.ofSource second with
  | error e =>
    rw [hsecond] at htree
    exact htree.trans (by rw [Nat.add_comm])
  | ok u =>
    rw [hsecond] at htree
    obtain ⟨v, hv, -, hchildren⟩ := htree
    obtain ⟨p, q, r, hp, hq, hr, helements⟩ := Program.ofSource_joined hfirst hsecond
    refine ⟨v, p, q, r, hv, hchildren, hchildren ▸ Tree.sameAll_joined _ _ _, hp, hq, hr, helements,
      fun o => ?_⟩
    have hmodule := Program.module_append o helements
    cases hm : p.module o with
    | error refusal =>
      rw [hm] at hmodule
      exact hmodule
    | ok m =>
      rw [hm] at hmodule
      cases hn : q.module o with
      | error refusal =>
        rw [hn] at hmodule
        exact hmodule
      | ok n =>
        rw [hn] at hmodule
        obtain ⟨hw, hheader⟩ := hmodule
        refine ⟨_, hw, rfl, rfl, hheader.symm, ?_⟩
        rw [Module.text, Module.lines, List.flatMap_append]

/-- A source that ends in a comment, joined with one that can be read and with one that cannot. -/
theorem separate_compilation_comment :
    ∃ t u v, Tree.ofSource "x = 1; ## one" = .ok t ∧ Tree.ofSource "y = x;" = .ok u ∧
      Tree.ofSource (joined "x = 1; ## one" "y = x;") = .ok v ∧
      v.children = t.children ++ u.children.map (Tree.shift 14) ∧
      Tree.ofSource (joined "x = 1; ## one" "y =") = .error ⟨14, "y ="⟩ := by
  obtain ⟨v, p, q, r, hv, hchildren, -⟩ :=
    show ∃ _ _ _ _, _ from @separate_compilation "x = 1; ## one" _ rfl "y = x;"
  exact ⟨_, _, v, rfl, rfl, hv, hchildren, @separate_compilation "x = 1; ## one" _ rfl "y ="⟩

end Chainlet
