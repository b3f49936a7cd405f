import Chainlet.Proofs.Joined.Tree
import Chainlet.Proofs.Program.Total

/-!
# Proofs/Joined/Program — the program of two sources with a line break between them

A tree further on in a source is built to the same program with spans further on.  So **the program of
two sources joined has the elements of the first one and, with other spans, those of the second one**
(`Program.ofSource_joined`).
-/

namespace Chainlet

/-! ## Spans further on in a source -/

/-- The span that many bytes further on. -/
def Span.shift (k : Nat) (s : Span) : Span := ⟨s.start + k, s.stop + k⟩

/-- The span of a tree further on, as the span of a part of its program. -/
def shiftedSpan (k : Nat) (s : Span) : Option Span := some (s.shift k)

/-- The element that many bytes further on. -/
def Element.shift (k : Nat) (e : Element) : Element := e.mapSpans (shiftedSpan k)

/-- **A tree corresponds to the same tree further on.** -/
theorem Tree.corresponds_shift (k : Nat) {t : Tree} (h : t.isPlaced = true) :
    t.Corresponds (shiftedSpan k) some (t.shift k) := by
  induction t using Tree.induction with
  | h rule text start ts ih =>
    rw [isPlaced_node, Bool.and_eq_true] at h
    obtain ⟨place, rfl⟩ := Option.isSome_iff_exists.1 h.1
    rw [shift_node]
    refine .node (fun _ => rfl) (congrArg some ?_) ?_
    · change Span.mk (place + k) (place + text.utf8ByteSize + k)
        = ⟨place + k, place + k + text.utf8ByteSize⟩
      rw [Nat.add_right_comm]
    · rw [List.forall₂_map_right_iff, List.forall₂_same]
      exact fun u hu => ih u hu (List.all_eq_true.1 h.2 u hu)

/-- Elements further on are built to elements further on. -/
theorem elements_shift (k : Nat) {ts : List Tree} (h : ts.all (Slot.category .element).admits = true)
    (hts : ∀ t ∈ ts, t.conforms = true ∧ t.isPlaced = true) {es : List Element}
    (hbuild : ts.mapM Element.ofTree = .ok es) :
    (ts.map (Tree.shift k)).mapM Element.ofTree = .ok (es.map (Element.shift k)) := by
  have htwins : List.Forall₂ (Tree.Twins (shiftedSpan k) some) ts (ts.map (Tree.shift k)) := by
    rw [List.forall₂_map_right_iff, List.forall₂_same]
    exact fun t ht => ⟨(hts t ht).1, Tree.corresponds_shift k (hts t ht).2⟩
  obtain ⟨us, us', hus, hus', hsame⟩ := elements_agree h htwins
  rw [hbuild] at hus
  cases hus
  have hself : us'.map (Element.mapSpans some) = us' := by
    rw [List.map_congr_left fun e _ => e.mapSpans_some, List.map_id']
  rw [hself] at hsame
  rw [hus', ← hsame]
  rfl

/-! ## Programs -/

/-- The elements of a program that was read are those of its tree. -/
theorem Program.ofSource_elements {source : String} {tree : Tree}
    (h : Tree.ofSource source = .ok tree) :
    ∃ p, Program.ofSource source = .ok p ∧ tree.children.mapM Element.ofTree = .ok p.elements := by
  obtain ⟨p, hp⟩ := Program.ofTree_ofSource h
  have hsource := Program.ofSource_eq_ok.2 ⟨tree, h, hp⟩
  obtain ⟨text, start, ts, stop, rfl, -, -⟩ := Tree.ofSource_eq_ok h
  obtain ⟨es, hes, heq⟩ := bind_eq_ok.1 hp
  cases heq
  exact ⟨_, hsource, hes⟩

/-- The elements of a tree that was read, each for itself. -/
theorem Tree.ofSource_children {source : String} {tree : Tree} (h : ofSource source = .ok tree) :
    tree.children.all (Slot.category .element).admits = true ∧
      ∀ t ∈ tree.children, t.conforms = true ∧ t.isPlaced = true := by
  have hconforms := ofSource_conforms h
  have hplaced := ofSource_isPlaced h
  obtain ⟨text, start, ts, stop, rfl, -, -⟩ := ofSource_eq_ok h
  obtain ⟨hlayout, -, hall⟩ := conforms_iff.1 hconforms
  rw [isPlaced_node, Bool.and_eq_true, List.all_eq_true] at hplaced
  exact ⟨hlayout, fun t ht => ⟨hall t ht, hplaced.2 t ht⟩⟩

/-- **The program of two sources joined.** -/
theorem Program.ofSource_joined {first second : String} {t u : Tree}
    (hfirst : Tree.ofSource first = .ok t) (hsecond : Tree.ofSource second = .ok u) :
    ∃ p q r, Program.ofSource first = .ok p ∧ Program.ofSource second = .ok q ∧
      Program.ofSource (joined first second) = .ok r ∧
      r.elements = p.elements ++ q.elements.map (Element.shift (first.utf8ByteSize + 1)) := by
  have hjoined := Tree.ofSource_joined hfirst second
  rw [hsecond] at hjoined
  obtain ⟨v, hv, -, hchildren⟩ := hjoined
  obtain ⟨p, hp, hpe⟩ := ofSource_elements hfirst
  obtain ⟨q, hq, hqe⟩ := ofSource_elements hsecond
  obtain ⟨r, hr, hre⟩ := ofSource_elements hv
  obtain ⟨hslots, heach⟩ := Tree.ofSource_children hsecond
  refine ⟨p, q, r, hp, hq, hr, ?_⟩
  rw [hchildren, List.mapM_append, hpe, elements_shift _ hslots heach hqe] at hre
  exact (Except.ok.inj hre).symm

end Chainlet
