import Chainlet.Proofs.Grammar.Tidy
import Chainlet.Proofs.Spelling.Names

/-!
# Proofs/Grammar/Anchored — how the texts of nodes begin and end

A node of a name, of a call or of a definition has the text of its children at its ends, and marks
around them: a path is its names with points between them, a type stands behind a colon, a call behind
an ampersand, and a definition starts with its keyword (`Tree.Anchored`).  Derivations leave open where
blanks and marks stand, so this is proved of the productions themselves, each of which reads nodes that
are anchored all the way down (`expressionAt_anchors`, `elements_anchored`).
-/

namespace Chainlet

/-! ## The words between cursors -/

namespace Cursor

/-- Whether a word lies between two cursors. -/
def Passes (c : Cursor) (word : List Char) (d : Cursor) : Prop :=
  c.rest = word ++ d.rest ∧ d.offset = c.offset + byteLength word

variable {c d e : Cursor} {word word' : List Char}

/-- Between a cursor and itself lies the empty word. -/
theorem Passes.refl (c : Cursor) : c.Passes [] c := ⟨rfl, rfl⟩

/-- The words between cursors are put together. -/
theorem Passes.trans (h : c.Passes word d) (h' : d.Passes word' e) : c.Passes (word ++ word') e := by
  refine ⟨by rw [h.1, h'.1, List.append_assoc], ?_⟩
  rw [h'.2, h.2, byteLength_append, Nat.add_assoc]

theorem Reaches.exists_passes (h : c.Reaches d) : ∃ word, c.Passes word d := h

/-- A word that lies between two cursors is the text between them. -/
theorem Passes.textTo (h : c.Passes word d) : c.textTo d = String.ofList word := by
  have hafter : d = c.after word d.rest := by rw [after, ← h.2]
  rw [hafter]
  exact textTo_after h.1

end Cursor

/-- The text of a node lies between the cursors that it was read between. -/
theorem Derives.passes {c d : Cursor} {t : Tree} (h : Derives c t d) : c.Passes t.text.toList d := by
  obtain ⟨word, hrest, hoffset, htext⟩ := h.reaches.exists_word
  rw [h.text_eq, htext, String.toList_ofList]
  exact ⟨hrest, hoffset⟩

/-- A mark lies between the cursors around it. -/
theorem Production.Only.passes {l : Lexeme} {word : List Char} (hl : Only l word) {c d : Cursor}
    (h : Production.sign l c = some d) : c.Passes word d := by
  obtain ⟨rest, htext, rfl⟩ := hl.sign h
  exact ⟨htext, rfl⟩

/-! ## Anchored nodes -/

namespace Tree

/-- Whether a node of a name, a call or a definition has the texts of its children where they belong. -/
def Anchored : Tree → Prop
  | node .path text _ ts => text = ".".intercalate (ts.map Tree.text)
  | node .typedName text _ ts => ∃ label type more, ts = [label, type] ∧ text = label.text ++ more ∧
      (type.children = [] → more = "")
  | node .typeAscription text _ ts => ∃ type between, ts = [type] ∧ text = ":" ++ between ++ type.text
  | node .definition text _ ts => ∃ word inside more, ts = word :: inside ∧ text = word.text ++ more
  | node .callExpression text _ _ => ∃ more, text = "&" ++ more
  | _ => True

/-- Whether every node of a tree is anchored. -/
def AllAnchored (t : Tree) : Prop := ∀ u ∈ t.nodes, u.Anchored

variable {rule : Rule} {text : String} {start : Option Nat} {ts : List Tree}

/-- A tree is anchored all the way down if its root and the trees of its children are. -/
theorem allAnchored_node (h : (node rule text start ts).Anchored) (hts : ∀ t ∈ ts, t.AllAnchored) :
    (node rule text start ts).AllAnchored :=
  forall_mem_nodes.2 ⟨h, hts⟩

end Tree

/-- Whether the nodes of a rule have texts of children to keep at their ends. -/
def Rule.isAnchor : Rule → Bool
  | .path | .typedName | .typeAscription | .definition | .callExpression => true
  | _ => false

/-- The nodes of most rules have nothing to keep. -/
theorem Tree.anchored_of_not_isAnchor {rule : Rule} (h : rule.isAnchor = false) (text : String)
    (start : Option Nat) (ts : List Tree) : (node rule text start ts).Anchored := by
  cases rule <;> trivial

namespace Production

/-- A production whose trees are anchored all the way down. -/
def Anchors (p : Production) : Prop :=
  ∀ ⦃c : Cursor⦄ ⦃t : Tree⦄ ⦃d : Cursor⦄, p c = some (t, d) → t.AllAnchored

variable {p q : Production} {rule : Rule} {n : Nat} {c d : Cursor} {t : Tree} {ts : List Tree}

/-- A node with nothing to keep is anchored if its children are. -/
theorem branch_anchored (hrule : rule.isAnchor = false) (hts : ∀ t ∈ ts, t.AllAnchored) :
    (branch rule c d ts).AllAnchored :=
  Tree.allAnchored_node (Tree.anchored_of_not_isAnchor hrule _ _ _) hts

/-- A leaf is anchored: no rule of a word has something to keep. -/
theorem leaf_anchors {l : Lexeme} (hrule : rule.isAnchor = false) : (leaf rule l).Anchors := by
  intro c t d h
  obtain ⟨⟨word, rest⟩, -, heq⟩ := Option.map_eq_some_iff.1 h
  cases heq
  exact Tree.allAnchored_node (Tree.anchored_of_not_isAnchor hrule _ _ _) (List.forall_mem_nil _)

/-- A node around what another production reads is anchored, if it has nothing to keep. -/
theorem wrap_anchors (hp : p.Anchors) (hrule : rule.isAnchor = false) : (wrap rule p).Anchors := by
  intro c t d h
  obtain ⟨⟨child, d⟩, hread, h⟩ := Option.bind_eq_some_iff.1 h
  cases h
  exact branch_anchored hrule (List.forall_mem_singleton.2 (hp hread))

/-- A choice reads anchored trees if both of its productions do. -/
theorem either_anchors (hp : p.Anchors) (hq : q.Anchors) : (either p q).Anchors := by
  intro c t d h
  rw [either] at h
  cases hread : p c with
  | none => exact hq (by simpa [hread] using h)
  | some _ => exact hp (hread.trans (by simpa [hread] using h))

/-- A choice of several productions reads anchored trees if each of them does. -/
theorem firstOf_anchors {ps : List Production} (h : ∀ p ∈ ps, Anchors p) : (firstOf ps).Anchors := by
  intro c t d hread
  obtain ⟨p, hp, hread⟩ := List.exists_of_findSome?_eq_some hread
  exact h p hp hread

/-- The node of a part that may be missing is anchored. -/
theorem optionalPart_anchored (hp : p.Anchors) (h : optionalPart p c = (t, d)) : t.AllAnchored := by
  rw [optionalPart] at h
  split at h
  · next child d' hread =>
    cases h
    exact Tree.allAnchored_node trivial (List.forall_mem_singleton.2 (hp hread))
  · cases h
    exact Tree.allAnchored_node trivial (List.forall_mem_nil _)

/-- A part that is missing leaves the cursor where it is. -/
theorem optionalPart_eq_self (h : optionalPart p c = (t, d)) (hchildren : t.children = []) :
    d = c := by
  rw [optionalPart] at h
  split at h <;> cases h
  · cases hchildren
  · rfl

/-- A repetition reads anchored trees if each step does. -/
theorem repeated_anchored {step : Cursor → Option (Tree × Cursor)}
    (hstep : ∀ ⦃c t d⦄, step c = some (t, d) → t.AllAnchored)
    (h : repeated step n c = (ts, d)) : ∀ t ∈ ts, t.AllAnchored := by
  induction n generalizing c ts with
  | zero => cases h; exact List.forall_mem_nil _
  | succ n ih =>
    rw [repeated] at h
    split at h
    · cases h; exact List.forall_mem_nil _
    · next t d' hread =>
      generalize hrest : repeated step n d' = rest at h
      obtain ⟨us, e⟩ := rest
      cases h
      exact List.forall_mem_cons.2 ⟨hstep hread, ih hrest⟩

theorem commaStep_anchored (hp : p.Anchors) (h : commaStep p c = some (t, d)) : t.AllAnchored := by
  obtain ⟨e, -, h⟩ := Option.bind_eq_some_iff.1 h
  exact hp h

/-- The elements of a list are anchored if each of them is. -/
theorem separated_anchored (hp : p.Anchors) (h : separated n p c = (ts, d)) :
    ∀ t ∈ ts, t.AllAnchored := by
  rw [separated] at h
  split at h
  · cases h
    exact List.forall_mem_nil _
  · next t d' hread =>
    generalize hrest : repeated _ n d' = rest at h
    obtain ⟨us, e⟩ := rest
    cases h
    exact List.forall_mem_cons.2
      ⟨hp hread, repeated_anchored (fun _ _ _ => commaStep_anchored hp) hrest⟩

/-- A list with commas is anchored. -/
theorem commaList_anchored (hp : p.Anchors) (hrule : rule.isAnchor = false)
    (h : commaList n rule p c = (t, d)) : t.AllAnchored := by
  rw [commaList] at h
  split at h
  · cases h
    exact Tree.allAnchored_node (Tree.anchored_of_not_isAnchor hrule _ _ _) (List.forall_mem_nil _)
  · next ts d' hne hlist =>
    cases h
    exact branch_anchored hrule (separated_anchored hp hlist)

/-- A list between brackets is anchored. -/
theorem bracketed_anchors {opening closing : List Char} (hp : p.Anchors)
    (hrule : rule.isAnchor = false) : (bracketed n rule opening closing p).Anchors := by
  intro c t d h
  obtain ⟨d₁, -, h⟩ := Option.bind_eq_some_iff.1 h
  generalize hlist : separated n p d₁ = list at h
  obtain ⟨ts, e⟩ := list
  obtain ⟨g, -, h⟩ := Option.bind_eq_some_iff.1 h
  cases h
  exact branch_anchored hrule (separated_anchored hp hlist)

end Production

namespace Grammar

open Production

variable {n : Nat} {inner : Production} {c d e : Cursor} {t : Tree} {ts : List Tree}

/-! ## Names -/

theorem name_anchors : name.Anchors := leaf_anchors (by decide)

theorem keyword_anchors : keyword.Anchors := leaf_anchors (by decide)

/-- Behind the first name of a path there are points with a name behind each. -/
theorem points_passes (h : repeated pointStep n c = (ts, d)) :
    c.Passes (ts.flatMap fun t => '.' :: t.text.toList) d := by
  induction n generalizing c ts with
  | zero => cases h; exact .refl _
  | succ n ih =>
    rw [repeated] at h
    split at h
    · cases h; exact .refl _
    · next t d' hread =>
      generalize hrest : repeated pointStep n d' = rest at h
      obtain ⟨us, e⟩ := rest
      cases h
      obtain ⟨e', hsign, hname⟩ := Option.bind_eq_some_iff.1 hread
      have hpoint := ((only_exactly ['.']).passes hsign).trans (name_reads hname).1.passes
      exact hpoint.trans (ih hrest)

/-- The text of a path is the names with the points between them. -/
theorem path_anchors : (path n).Anchors := by
  intro c t d h
  obtain ⟨⟨first, d₁⟩, hfirst, h⟩ := Option.bind_eq_some_iff.1 h
  dsimp only at h
  generalize hmore : repeated _ n d₁ = more at h
  obtain ⟨more, e⟩ := more
  cases h
  have hsteps : ∀ t ∈ more, t.AllAnchored := by
    refine repeated_anchored (fun c t d h => ?_) hmore
    obtain ⟨e, -, h⟩ := Option.bind_eq_some_iff.1 h
    exact name_anchors h
  have htext := ((name_reads hfirst).1.passes.trans (points_passes hmore)).textTo
  refine Tree.allAnchored_node ?_ (List.forall_mem_cons.2 ⟨name_anchors hfirst, hsteps⟩)
  have hword := path_word first.text (more.map Tree.text) none
  rw [Path.word, Path.flatten, List.flatMap_map] at hword
  rw [Tree.Anchored, List.map_cons, htext]
  rw [← String.toList_inj, String.toList_ofList]
  exact hword.symm

/-- The text of a type annotation ends with the type. -/
theorem typeAscription_anchors : typeAscription.Anchors := by
  intro c t d h
  obtain ⟨d₁, hsign, h⟩ := Option.bind_eq_some_iff.1 h
  obtain ⟨⟨type, e⟩, htype, h⟩ := Option.bind_eq_some_iff.1 h
  cases h
  obtain ⟨blanks, hblanks⟩ := d₁.reaches_skipBlank.exists_passes
  have htext := (((only_exactly [':']).passes hsign).trans hblanks).trans
    (name_reads htype).1.passes |>.textTo
  refine Tree.allAnchored_node ⟨type, String.ofList blanks, rfl, ?_⟩
    (List.forall_mem_singleton.2 (name_anchors htype))
  rw [htext, String.ofList_append, String.ofList_append, String.ofList_toList]

/-- The text of a name with a type starts with the name. -/
theorem typedName_anchors : typedName.Anchors := by
  intro c t d h
  obtain ⟨⟨label, d₁⟩, hlabel, h⟩ := Option.bind_eq_some_iff.1 h
  dsimp only at h
  generalize htype : optionalPart typeAscription d₁ = type at h
  obtain ⟨type, e⟩ := type
  cases h
  have hchildren : ∀ t ∈ [label, type], t.AllAnchored :=
    List.forall_mem_cons.2 ⟨name_anchors hlabel,
      List.forall_mem_singleton.2 (optionalPart_anchored typeAscription_anchors htype)⟩
  have hname := (name_reads hlabel).1.passes
  obtain ⟨more, hmore⟩ := (optionalPart_trims typeAscription_trims htype).ends.reaches.exists_passes
  refine Tree.allAnchored_node ⟨label, type, String.ofList more, rfl, ?_, fun hmissing => ?_⟩ hchildren
  · rw [(hname.trans hmore).textTo, String.ofList_append, String.ofList_toList]
  · obtain rfl := optionalPart_eq_self htype hmissing
    obtain rfl := List.self_eq_append_left.1 hmore.1
    rfl

theorem generics_anchors : (generics n).Anchors := by
  intro c t d h
  obtain ⟨d₁, -, h⟩ := Option.bind_eq_some_iff.1 h
  dsimp only at h
  generalize hnames : separated n name d₁ = names at h
  obtain ⟨names, e⟩ := names
  dsimp only at h
  split at h
  · cases h
  · obtain ⟨f, -, h⟩ := Option.bind_eq_some_iff.1 h
    cases h
    exact branch_anchored (by decide) (separated_anchored name_anchors hnames)

/-! ## Literals and items -/

theorem field_anchors (hinner : inner.Anchors) : (field inner).Anchors := by
  intro c t d h
  obtain ⟨⟨key, d₁⟩, hkey, h⟩ := Option.bind_eq_some_iff.1 h
  obtain ⟨e, -, h⟩ := Option.bind_eq_some_iff.1 h
  obtain ⟨⟨value, f⟩, hvalue, h⟩ := Option.bind_eq_some_iff.1 h
  cases h
  exact branch_anchored (by decide) (List.forall_mem_cons.2
    ⟨typedName_anchors hkey, List.forall_mem_singleton.2 (hinner hvalue)⟩)

/-- A literal is anchored if its inner expressions are. -/
theorem literal_anchors (hinner : inner.Anchors) : (literal n inner).Anchors := by
  refine firstOf_anchors fun p hp => ?_
  simp only [List.mem_cons, List.not_mem_nil, or_false] at hp
  obtain rfl | rfl | rfl | rfl | rfl | rfl | rfl | rfl | rfl | rfl := hp
  · exact bracketed_anchors hinner (by decide)
  · exact bracketed_anchors (field_anchors hinner) (by decide)
  · exact bracketed_anchors hinner (by decide)
  all_goals exact leaf_anchors (by decide)

theorem assignment_anchors (hinner : inner.Anchors) : (assignment n inner).Anchors := by
  intro c t d h
  obtain ⟨⟨target, d₁⟩, htarget, h⟩ := Option.bind_eq_some_iff.1 h
  obtain ⟨e, -, h⟩ := Option.bind_eq_some_iff.1 h
  obtain ⟨⟨value, f⟩, hvalue, h⟩ := Option.bind_eq_some_iff.1 h
  cases h
  exact branch_anchored (by decide) (List.forall_mem_cons.2
    ⟨path_anchors htarget, List.forall_mem_singleton.2 (hinner hvalue)⟩)

/-- A parameter is anchored, be it a name or a pattern. -/
theorem parameter_anchors (hinner : inner.Anchors) : (parameter n inner).Anchors :=
  either_anchors (wrap_anchors (literal_anchors hinner) (by decide))
    (wrap_anchors typedName_anchors (by decide))

theorem binding_anchors (hinner : inner.Anchors) : (binding inner).Anchors := by
  intro c t d h
  obtain ⟨d₁, -, h⟩ := Option.bind_eq_some_iff.1 h
  obtain ⟨⟨body, e⟩, hbody, h⟩ := Option.bind_eq_some_iff.1 h
  cases h
  exact branch_anchored (by decide) (List.forall_mem_singleton.2 (hinner hbody))

/-- The text of a definition starts with its keyword. -/
theorem definition_anchors (htrims : inner.Trims) (hinner : inner.Anchors) :
    (definition n inner).Anchors := by
  intro c t d h
  obtain ⟨⟨word, d₁⟩, hword, h⟩ := Option.bind_eq_some_iff.1 h
  obtain ⟨⟨label, d₂⟩, hlabel, h⟩ := Option.bind_eq_some_iff.1 h
  dsimp only at h
  generalize htypes : optionalPart (generics n) d₂ = types at h
  obtain ⟨types, d₃⟩ := types
  dsimp only at h
  generalize hinputs : commaList n .parameters (parameter n inner) d₃ = inputs at h
  obtain ⟨inputs, d₄⟩ := inputs
  dsimp only at h
  generalize hbody : optionalPart (binding inner) d₄ = body at h
  obtain ⟨body, d₅⟩ := body
  cases h
  have htail : d₁.Reaches d₅ :=
    ((typedName_trims hlabel).all_behind d₁.reaches_skipBlank).append
      ((optionalPart_trims generics_trims htypes).append
        ((commaList_trims (parameter_trims htrims) (by decide) hinputs).append
          (optionalPart_trims (binding_trims htrims) hbody))) |>.ends.reaches
  obtain ⟨more, hmore⟩ := htail.exists_passes
  refine Tree.allAnchored_node ⟨word, _, String.ofList more, rfl, ?_⟩ ?_
  · rw [((keyword_reads hword).1.passes.trans hmore).textTo, String.ofList_append,
      String.ofList_toList]
  · simp only [List.forall_mem_cons]
    exact ⟨keyword_anchors hword, typedName_anchors hlabel,
      optionalPart_anchored generics_anchors htypes,
      commaList_anchored (parameter_anchors hinner) (by decide) hinputs,
      optionalPart_anchored (binding_anchors hinner) hbody, List.forall_mem_nil _⟩

theorem item_anchors (htrims : inner.Trims) (hinner : inner.Anchors) : (item n inner).Anchors :=
  have hstatement : (statement n inner).Anchors :=
    either_anchors (wrap_anchors (definition_anchors htrims hinner) (by decide))
      (wrap_anchors (assignment_anchors hinner) (by decide))
  either_anchors (wrap_anchors hstatement (by decide))
    (wrap_anchors hinner (by decide))

/-! ## Operands and expressions -/

theorem block_anchors (htrims : inner.Trims) (hinner : inner.Anchors) : (block n inner).Anchors := by
  intro c t d h
  obtain ⟨d₁, -, h⟩ := Option.bind_eq_some_iff.1 h
  dsimp only at h
  generalize hitems : repeated _ n d₁ = items at h
  obtain ⟨items, e⟩ := items
  obtain ⟨f, -, h⟩ := Option.bind_eq_some_iff.1 h
  cases h
  refine branch_anchored (by decide) (repeated_anchored (fun c t d h => ?_) hitems)
  obtain ⟨⟨t', d'⟩, hitem, h⟩ := Option.bind_eq_some_iff.1 h
  obtain ⟨e, -, h⟩ := Option.bind_eq_some_iff.1 h
  cases h
  exact item_anchors htrims hinner hitem

theorem group_anchors (hinner : inner.Anchors) : (group inner).Anchors := by
  intro c t d h
  obtain ⟨d₁, -, h⟩ := Option.bind_eq_some_iff.1 h
  obtain ⟨⟨body, e⟩, hbody, h⟩ := Option.bind_eq_some_iff.1 h
  obtain ⟨f, -, h⟩ := Option.bind_eq_some_iff.1 h
  cases h
  exact branch_anchored (by decide) (List.forall_mem_singleton.2 (hinner hbody))

/-- An operand is anchored, whichever of its kinds it is. -/
theorem operand_anchors (htrims : inner.Trims) (hinner : inner.Anchors) :
    (operand n inner).Anchors := by
  refine firstOf_anchors fun p hp => ?_
  simp only [List.mem_cons, List.not_mem_nil, or_false] at hp
  obtain rfl | rfl | rfl | rfl := hp
  · exact wrap_anchors (literal_anchors hinner) (by decide)
  · exact group_anchors hinner
  · exact wrap_anchors (block_anchors htrims hinner) (by decide)
  · exact wrap_anchors path_anchors (by decide)

/-- The node of a callee and arguments is anchored. -/
theorem callOf_anchors {rule : Rule} {callee : Production} (hinner : inner.Anchors)
    (hcallee : callee.Anchors) (hrule : rule.isAnchor = false) :
    (callOf n inner rule callee).Anchors := by
  intro c t d h
  obtain ⟨⟨target, d₁⟩, htarget, h⟩ := Option.bind_eq_some_iff.1 h
  dsimp only at h
  generalize harguments : commaList n .arguments inner d₁ = arguments at h
  obtain ⟨arguments, e⟩ := arguments
  cases h
  exact branch_anchored hrule (List.forall_mem_cons.2 ⟨hcallee htarget,
    List.forall_mem_singleton.2 (commaList_anchored hinner (by decide) harguments)⟩)

/-- The text of a call starts with its ampersand. -/
theorem call_anchors (htrims : inner.Trims) (hinner : inner.Anchors) : (call n inner).Anchors := by
  intro c t d h
  obtain ⟨d₁, hsign, h⟩ := Option.bind_eq_some_iff.1 h
  obtain ⟨⟨target, e⟩, htarget, h⟩ := Option.bind_eq_some_iff.1 h
  cases h
  have hreach := (either_trims (callOf_trims htrims keyword_trims (by decide))
    (callOf_trims htrims path_trims (by decide)) htarget).tight.reaches
  obtain ⟨more, hmore⟩ := (d₁.reaches_skipBlank.trans hreach).exists_passes
  refine Tree.allAnchored_node ⟨String.ofList more, ?_⟩ (List.forall_mem_singleton.2 ?_)
  · rw [(((only_exactly ['&']).passes hsign).trans hmore).textTo, String.ofList_append]
  · exact either_anchors (callOf_anchors hinner keyword_anchors (by decide))
      (callOf_anchors hinner path_anchors (by decide)) htarget

/-- A chain of operators that is folded to the left is anchored if its head is. -/
theorem links_anchored (htrims : inner.Trims) (hinner : inner.Anchors) {k : Nat} {head : Tree}
    {links : List (Tree × Tree × Cursor)} (h : repeated (link n inner) k d = (links, e))
    (hhead : head.AllAnchored) : (foldLinks c head links).AllAnchored := by
  induction k generalizing d head links with
  | zero => cases h; exact hhead
  | succ k ih =>
    rw [repeated] at h
    split at h
    · cases h; exact hhead
    · next link d' hlink =>
      generalize hrest : repeated _ k d' = rest at h
      obtain ⟨more, e'⟩ := rest
      cases h
      obtain ⟨⟨sign, d₁⟩, hsign, hlink⟩ := Option.bind_eq_some_iff.1 hlink
      obtain ⟨⟨right, d₂⟩, hright, hlink⟩ := Option.bind_eq_some_iff.1 hlink
      cases hlink
      have hsign' : sign.AllAnchored := leaf_anchors (by decide) hsign
      have hright' : right.AllAnchored := operand_anchors htrims hinner hright
      rw [foldLinks, List.foldl_cons]
      refine ih hrest (branch_anchored (by decide) ?_)
      exact List.forall_mem_cons.2 ⟨hhead, List.forall_mem_cons.2
        ⟨hsign', List.forall_mem_singleton.2 hright'⟩⟩

/-- A chain of operators is anchored. -/
theorem chain_anchors (htrims : inner.Trims) (hinner : inner.Anchors) : (chain n inner).Anchors := by
  intro c t d h
  obtain ⟨⟨head, d₁⟩, hhead, h⟩ := Option.bind_eq_some_iff.1 h
  dsimp only at h
  generalize hlinks : repeated (link n inner) n d₁ = links at h
  obtain ⟨links, e⟩ := links
  cases h
  exact links_anchored htrims hinner hlinks (either_anchors (call_anchors htrims hinner)
    (wrap_anchors (operand_anchors htrims hinner) (by decide)) hhead)

/-- **Expressions of any nesting are anchored.** -/
theorem expressionAt_anchors (n : Nat) : (expressionAt n).Anchors := by
  induction n with
  | zero => exact fun c t d h => absurd h (Option.some_ne_none _).symm
  | succ n ih => exact chain_anchors (expressionAt_trims n) ih

/-! ## Sources -/

/-- An element of a source is anchored. -/
theorem elementWith_anchors (htrims : inner.Trims) (hinner : inner.Anchors) :
    (elementWith n inner).Anchors := by
  refine either_anchors (wrap_anchors (leaf_anchors (by decide)) (by decide)) ?_
  intro c t d h
  obtain ⟨⟨t', d'⟩, hitem, h⟩ := Option.bind_eq_some_iff.1 h
  obtain ⟨e, -, h⟩ := Option.bind_eq_some_iff.1 h
  cases h
  exact branch_anchored (by decide)
    (List.forall_mem_singleton.2 (item_anchors htrims hinner hitem))

/-- **Every node of the elements of a source is anchored.** -/
theorem elements_anchored (h : elements c = (ts, d)) : ∀ t ∈ ts, t.AllAnchored := by
  obtain ⟨e, hsteps, -, -⟩ := steps_of_elements h
  clear h
  generalize c.rest.length = n at hsteps
  induction hsteps with
  | nil => exact List.forall_mem_nil _
  | cons hstep _ ih =>
    exact List.forall_mem_cons.2
      ⟨elementWith_anchors (expressionAt_trims _) (expressionAt_anchors _) hstep, ih⟩

end Grammar

end Chainlet
