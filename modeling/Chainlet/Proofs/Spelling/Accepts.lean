import Mathlib.Data.List.Forall2
import Chainlet.Proofs.Grammar.Step
import Chainlet.Proofs.Spelling.Start

/-!
# Proofs/Spelling/Accepts — productions that read the words of a part

`Accepts n p stop ws good` says that a production reads certain words, whatever words come behind
them as long as the next one starts with a character that stops it, and that the node it makes is a
good one.  There is one lemma for each way of putting productions together, and each list of words
that may be missing, may be empty or may end in a comma is dealt with here once.
-/

namespace Chainlet

/-! ## Words in a text -/

/-- The text behind a word: blanks, at least one if there are more words, and then those. -/
def Trails (ws : List Word) (text : List Char) : Prop :=
  ∃ gap rest, text = gap ++ rest ∧ gap.all isBlank = true ∧ (ws ≠ [] → gap ≠ []) ∧ Laid ws rest

/-- Behind the first word of a text, the other ones trail. -/
theorem Laid.trails {w : Word} {ws : List Word} {text : List Char} (h : Laid (w :: ws) text) :
    ∃ tail, text = w ++ tail ∧ Trails ws tail := by
  obtain ⟨gap, rest, htext, hblank, hgap, -, hrest⟩ := h
  exact ⟨gap ++ rest, htext, gap, rest, rfl, hblank, hgap, hrest⟩

/-- What trails a word ends it. -/
theorem Trails.endsWord {ws : List Word} {text : List Char} (h : Trails ws text) :
    EndsWord text := by
  obtain ⟨gap, rest, rfl, hblank, hgap, hrest⟩ := h
  cases gap with
  | nil =>
    obtain rfl : ws = [] := by
      by_contra hne
      exact hgap hne rfl
    rw [show rest = [] from hrest]
    rfl
  | cons c cs =>
    rw [List.all_cons, Bool.and_eq_true] at hblank
    exact hblank.1

/-- Words of which the first one starts with a character of a class. -/
def Opens (first : Char → Bool) (ws : List Word) : Prop :=
  ∃ c w us, ws = (c :: w) :: us ∧ first c = true

variable {first second stop : Char → Bool} {ws rest : List Word}

/-- A list of words opens with its first character. -/
theorem opens_cons {c : Char} (w : Word) (us : List Word) (h : first c = true) :
    Opens first ((c :: w) :: us) := ⟨c, w, us, rfl, h⟩

/-- Words that are put behind others do not change how these open. -/
theorem Opens.append (h : Opens first ws) (vs : List Word) : Opens first (ws ++ vs) := by
  obtain ⟨c, w, us, rfl, hc⟩ := h
  exact opens_cons w (us ++ vs) hc

/-- A list of words opens with every class that holds the one it opens with. -/
theorem Opens.mono (h : Opens first ws) (hle : ∀ c, first c = true → second c = true) :
    Opens second ws := by
  obtain ⟨c, w, us, rfl, hc⟩ := h
  exact opens_cons w us (hle c hc)

/-- The next character is not of a class that has nothing in common with the first word. -/
theorem Laid.not_any {text : List Char} (h : Laid ws text) (ho : Opens first ws)
    (hdisjoint : ∀ c, first c = true → second c = false) : text.head?.any second = false := by
  obtain ⟨c, w, us, rfl, hc⟩ := ho
  obtain ⟨tail, rfl, -⟩ := h.trails
  exact hdisjoint c hc

/-- Behind the blanks, words that trail are laid. -/
theorem Trails.skip {c : Cursor} (h : Trails ws c.rest) (ho : Opens isVisible ws) :
    Laid ws c.skipBlank.rest := by
  obtain ⟨gap, text, htext, hblank, -, hlaid⟩ := h
  have hstop : text.head?.any isBlank = false := hlaid.not_any ho fun _ => isBlank_eq_false
  have hskip : c.skipBlank.rest = text := by
    change c.rest.dropWhile isBlank = text
    rw [htext, dropWhile_append_of_all hblank hstop]
  rwa [hskip]

namespace Production

/-! ## Reading words -/

/-- A production that reads words and makes a good node of them, in rests of fewer than `n`
characters and before words that stop it. -/
def Accepts (n : Nat) (p : Production) (stop : Char → Bool) (ws : List Word) (good : Tree → Prop) :
    Prop :=
  ∀ ⦃c : Cursor⦄ ⦃rest : List Word⦄, c.rest.length < n → Laid (ws ++ rest) c.rest →
    Opens stop rest → ∃ t d, p c = some (t, d) ∧ good t ∧ Trails rest d.rest

/-- A production that reads nothing in front of certain words. -/
def Rejects (n : Nat) (p : Production) (stop : Char → Bool) (ws : List Word) : Prop :=
  ∀ ⦃c : Cursor⦄ ⦃rest : List Word⦄, c.rest.length < n → Laid (ws ++ rest) c.rest →
    Opens stop rest → p c = none

variable {n m : Nat} {p q : Production} {l : Lexeme} {w : Word} {rule : Rule}
  {good good' : Tree → Prop}

/-- What is read in long rests is read in shorter ones. -/
theorem Accepts.mono (h : Accepts n p stop ws good) (hm : m ≤ n) : Accepts m p stop ws good :=
  fun _ _ hlength => h (Nat.lt_of_lt_of_le hlength hm)

/-- What is read before any words of a class is read before those of a smaller one. -/
theorem Accepts.weaken (h : Accepts n p stop ws good) (hle : ∀ c, second c = true → stop c = true) :
    Accepts n p second ws good := fun _ _ hlength hlaid ho => h hlength hlaid (ho.mono hle)

/-- The node that is read has every property that follows from its own. -/
theorem Accepts.imp (h : Accepts n p stop ws good) (himp : ∀ t, good t → good' t) :
    Accepts n p stop ws good' := by
  intro c rest hlength hlaid ho
  obtain ⟨t, d, hread, hgood, hrest⟩ := h hlength hlaid ho
  exact ⟨t, d, hread, himp t hgood, hrest⟩

/-- A production reads nothing where its first character cannot stand. -/
theorem rejects_of_startsWith (h : StartsWith p first) (ho : Opens second ws)
    (hdisjoint : ∀ c, second c = true → first c = false) : Rejects n p stop ws :=
  fun _ rest _ hlaid _ => h.fails (hlaid.not_any (ho.append rest) hdisjoint)

/-- A sign is read off the words, and the others trail. -/
theorem sign_laid (hl : l.Takes w) {c : Cursor} (h : Laid (w :: rest) c.rest) :
    ∃ d, sign l c = some d ∧ Trails rest d.rest := by
  obtain ⟨tail, htext, htail⟩ := h.trails
  exact ⟨c.after w tail, sign_eq_some.2 ⟨w, tail, by rw [htext]; exact hl htail.endsWord, rfl⟩, htail⟩

/-- A sign with blanks in front of it. -/
theorem sign_trails (hl : l.Takes w) {c : Cursor} (h : Trails (w :: rest) c.rest)
    (hw : Opens isVisible [w]) : ∃ d, sign l c.skipBlank = some d ∧ Trails rest d.rest :=
  sign_laid hl (h.skip (hw.append rest))

/-- A word is read into its leaf. -/
theorem leaf_accepts (hl : l.Takes w) :
    Accepts n (leaf rule l) stop [w] fun t =>
      ∃ start, t = .node rule (String.ofList w) start [] := by
  intro c rest _ hlaid _
  obtain ⟨tail, htext, htail⟩ := hlaid.trails
  refine ⟨.node rule (String.ofList w) (some c.offset) [], c.after w tail, ?_, ⟨_, rfl⟩, htail⟩
  rw [leaf, htext, hl htail.endsWord]
  rfl

/-- A node around another one is read as that one is. -/
theorem wrap_accepts (h : Accepts n p stop ws good)
    (hgood : ∀ text start t, good t → good' (.node rule text start [t])) :
    Accepts n (wrap rule p) stop ws good' := by
  intro c rest hlength hlaid ho
  obtain ⟨t, d, hread, ht, hrest⟩ := h hlength hlaid ho
  exact ⟨branch rule c d [t], d, by rw [wrap, hread]; rfl, hgood _ _ t ht, hrest⟩

/-- The first of two productions is tried first. -/
theorem either_accepts_left (h : Accepts n p stop ws good) : Accepts n (either p q) stop ws good := by
  intro c rest hlength hlaid ho
  obtain ⟨t, d, hread, hgood⟩ := h hlength hlaid ho
  exact ⟨t, d, by rw [either, hread]; rfl, hgood⟩

/-- The second of two productions is tried where the first reads nothing. -/
theorem either_accepts_right (hp : Rejects n p stop ws) (hq : Accepts n q stop ws good) :
    Accepts n (either p q) stop ws good := by
  intro c rest hlength hlaid ho
  obtain ⟨t, d, hread, hgood⟩ := hq hlength hlaid ho
  exact ⟨t, d, by rw [either, hp hlength hlaid ho]; exact hread, hgood⟩

/-- The first of several productions is tried first. -/
theorem firstOf_accepts_head {ps : List Production} (h : Accepts n p stop ws good) :
    Accepts n (firstOf (p :: ps)) stop ws good := by
  intro c rest hlength hlaid ho
  obtain ⟨t, d, hread, hgood⟩ := h hlength hlaid ho
  exact ⟨t, d, by rw [firstOf, List.findSome?_cons, hread], hgood⟩

/-- The other productions are tried where the first reads nothing. -/
theorem firstOf_accepts_tail {ps : List Production} (hp : Rejects n p stop ws)
    (h : Accepts n (firstOf ps) stop ws good) : Accepts n (firstOf (p :: ps)) stop ws good := by
  intro c rest hlength hlaid ho
  obtain ⟨t, d, hread, hgood⟩ := h hlength hlaid ho
  exact ⟨t, d, by rw [firstOf, List.findSome?_cons, hp hlength hlaid ho]; exact hread, hgood⟩

/-! ## Parts that may be missing -/

/-- A part that may be missing is read if its words are there. -/
theorem optionalPart_present (h : Accepts n p stop ws good) (hws : Opens isVisible ws) {c : Cursor}
    (hlength : c.rest.length < n) (hlaid : Trails (ws ++ rest) c.rest) (ho : Opens stop rest) :
    ∃ t d, optionalPart p c = (t, d) ∧
      (∃ text start u, t = .node .optional text start [u] ∧ good u) ∧ Trails rest d.rest := by
  obtain ⟨t, d, hread, hgood, hrest⟩ := h (Nat.lt_of_le_of_lt c.length_skipBlank hlength)
    (hlaid.skip (hws.append rest)) ho
  exact ⟨.node .optional t.text t.start [t], d, by rw [optionalPart, hread],
    ⟨t.text, t.start, t, rfl, hgood⟩, hrest⟩

/-- A part that may be missing is left out if other words are there. -/
theorem optionalPart_absent (h : StartsWith p first) {c : Cursor} (hrest : Trails rest c.rest)
    (hvisible : Opens isVisible rest) (ho : Opens stop rest)
    (hdisjoint : ∀ c, stop c = true → first c = false) :
    optionalPart p c = (absent .optional c, c) := by
  rw [optionalPart, h.fails ((hrest.skip hvisible).not_any ho hdisjoint)]

/-! ## Lists -/

/-- In a list, a comma stands before each group of words but the first. -/
theorem commaSeparated_cons (ws : List Word) (wss : List (List Word)) :
    commaSeparated (ws :: wss) = ws ++ wss.flatMap ([','] :: ·) := by
  induction wss generalizing ws with
  | nil => simp [commaSeparated]
  | cons vs vss ih =>
    rw [commaSeparated, ih, List.flatMap_cons, List.cons_append]
    exact List.cons_ne_nil vs vss

/-- What comes first, an element or what is behind a list without any. -/
theorem opens_commaSeparated {α : Type} {xs : List α} {wss : List (List Word)}
    (h : List.Forall₂ (fun _ ws => Opens first ws) xs wss) (ho : Opens first rest) :
    Opens first (commaSeparated wss ++ rest) := by
  cases h with
  | nil => exact ho
  | cons hfirst _ =>
    rw [commaSeparated_cons, List.append_assoc]
    exact hfirst.append _

/-- What is behind an element of a list is a comma or the end of the list. -/
theorem opens_tail {wss : List (List Word)} (hcomma : stop ',' = true) (ho : Opens stop rest) :
    Opens stop (wss.flatMap ([','] :: ·) ++ rest) := by
  cases wss with
  | nil => exact ho
  | cons ws wss => exact opens_cons [] _ hcomma

variable {α : Type} {xs : List α} {wss : List (List Word)} {means : α → Tree → Prop}

/-- The elements behind the first are read one by one, each with its comma. -/
theorem commaSteps (hcomma : stop ',' = true)
    (h : List.Forall₂ (fun x ws => Accepts n p stop ws (means x) ∧ Opens isVisible ws) xs wss)
    {slot : Slot} (hp : p.Reads slot) (hsolid : slot.isSolid = true) {c : Cursor}
    (hlength : c.rest.length < n) (hlaid : Trails (wss.flatMap ([','] :: ·) ++ rest) c.rest)
    (ho : Opens stop rest) :
    ∃ ts d, Steps (commaStep p) c ts d ∧ List.Forall₂ means xs ts ∧ Trails rest d.rest := by
  induction h generalizing c with
  | nil => exact ⟨[], c, .nil, .nil, hlaid⟩
  | @cons x ws xs wss hfirst _ ih =>
    rw [List.flatMap_cons, List.cons_append, List.cons_append, List.append_assoc] at hlaid
    obtain ⟨d, hsign, hd⟩ := sign_trails (Lexeme.exactly_takes [',']) hlaid (opens_cons [] [] rfl)
    have hshort := (only_exactly [',']).length_lt (List.cons_ne_nil _ _) hsign
    have hskip := c.length_skipBlank
    have hskip' := d.length_skipBlank
    obtain ⟨t, e, hread, hmeans, he⟩ := hfirst.1 (by omega)
      (hd.skip (hfirst.2.append _)) (opens_tail hcomma ho)
    have hstep : commaStep p c = some (t, e) := Option.bind_eq_some_iff.2 ⟨d, hsign, hread⟩
    have hlt := commaStep_shortens hp hsolid hstep
    obtain ⟨ts, f, hsteps, hall, hf⟩ := ih (by omega) he
    exact ⟨t :: ts, f, .cons hstep hsteps, .cons hmeans hall, hf⟩

/-- **A list between commas.**  It ends where no element starts and no comma is followed by one. -/
theorem separated_accepts (hcomma : stop ',' = true)
    (h : List.Forall₂ (fun x ws => Accepts n p stop ws (means x) ∧ Opens isVisible ws) xs wss)
    {slot : Slot} (hp : p.Reads slot) (hsolid : slot.isSolid = true) {c : Cursor}
    (hlength : c.rest.length < n) (hm : c.rest.length ≤ m)
    (hlaid : Trails (commaSeparated wss ++ rest) c.rest) (ho : Opens stop rest)
    (hend : ∀ d, Trails rest d.rest → p d.skipBlank = none ∧ commaStep p d = none) :
    ∃ ts d, separated m p c = (ts, d) ∧ List.Forall₂ means xs ts ∧ Trails rest d.rest := by
  cases h with
  | nil =>
    refine ⟨[], c, ?_, .nil, hlaid⟩
    rw [separated, (hend c hlaid).1]
  | @cons x ws xs wss hfirst hmore =>
    rw [commaSeparated_cons, List.append_assoc] at hlaid
    have hskip := c.length_skipBlank
    obtain ⟨t, d, hread, hmeans, hd⟩ := hfirst.1 (by omega)
      (hlaid.skip (hfirst.2.append _)) (opens_tail hcomma ho)
    have hlt := hp.length_lt hsolid hread
    obtain ⟨ts, e, hsteps, hall, he⟩ := commaSteps hcomma hmore hp hsolid (by omega) hd ho
    have hrepeated : repeated (commaStep p) m d = (ts, e) :=
      repeated_eq_of_steps (commaStep_shortens hp hsolid) hsteps (hend e he).2 (by omega)
    refine ⟨t :: ts, e, ?_, .cons hmeans hall, he⟩
    rw [separated, hread]
    change (t :: (repeated (commaStep p) m d).1, (repeated (commaStep p) m d).2) = _
    rw [hrepeated]

/-- No comma can be read here. -/
theorem commaStep_none {d : Cursor} (h : Trails rest d.rest) (hvisible : Opens isVisible rest)
    (ho : Opens second rest) (hdisjoint : ∀ c, second c = true → (c == ',') = false) :
    commaStep p d = none := by
  have hnone := (sign_startsWith (exactly_startsWith ',' [])).fails
    ((h.skip hvisible).not_any ho hdisjoint)
  exact Option.bind_eq_none_iff.2 fun e he => by rw [comma, hnone] at he; cases he

/-- A list without brackets: its node has the elements as children, or stands for nothing. -/
theorem commaList_accepts (hcomma : stop ',' = true)
    (h : List.Forall₂ (fun x ws => Accepts n p stop ws (means x) ∧ Opens isVisible ws) xs wss)
    {slot : Slot} (hp : p.Reads slot) (hsolid : slot.isSolid = true) {c : Cursor}
    (hlength : c.rest.length < n) (hm : c.rest.length ≤ m)
    (hlaid : Trails (commaSeparated wss ++ rest) c.rest) (ho : Opens stop rest)
    (hend : ∀ d, Trails rest d.rest → p d.skipBlank = none ∧ commaStep p d = none) :
    ∃ t d, commaList m rule p c = (t, d) ∧
      (∃ text start ts, t = .node rule text start ts ∧ List.Forall₂ means xs ts) ∧
      Trails rest d.rest := by
  obtain ⟨ts, d, hread, hall, hd⟩ := separated_accepts hcomma h hp hsolid hlength hm hlaid ho hend
  rw [commaList, hread]
  cases ts with
  | nil =>
    cases hall
    cases h
    exact ⟨_, _, rfl, ⟨_, _, [], rfl, .nil⟩, hlaid⟩
  | cons t ts => exact ⟨_, _, rfl, ⟨_, _, t :: ts, rfl, hall⟩, hd⟩

/-! ## Lists between brackets -/

/-- What stands behind the last element of a list: the closing bracket, or a comma and the bracket. -/
def ClosesList (closing : Word) (ws : List Word) : Prop := ws = [closing] ∨ ws = [[','], closing]

section Brackets

variable {k : Char} {closing : List Char} {tail : List Word}

/-- A list closes with its bracket, or with a comma before it. -/
theorem ClosesList.opens (h : ClosesList (k :: closing) tail) :
    Opens (fun c => c == k || c == ',') (tail ++ rest) := by
  obtain rfl | rfl := h
  · exact opens_cons closing rest (by simp)
  · exact opens_cons [] _ (by simp)

theorem isVisible_of_closes (hk : isVisible k = true) (c : Char) (hc : (c == k || c == ',') = true) :
    isVisible c = true := by
  rw [Bool.or_eq_true, beq_iff_eq, beq_iff_eq] at hc
  obtain rfl | rfl := hc
  · exact hk
  · rfl

/-- In front of the closing bracket there is neither an element nor a comma with one behind it. -/
theorem ClosesList.ends (h : ClosesList (k :: closing) tail) (hk : isVisible k = true)
    (hne : k ≠ ',') (hstarts : StartsWith p first)
    (hfirst : ∀ c, (c == k || c == ',') = true → first c = false) {d : Cursor}
    (hd : Trails (tail ++ rest) d.rest) : p d.skipBlank = none ∧ commaStep p d = none := by
  have hnone : ∀ {e : Cursor} {us : List Word}, Trails us e.rest →
      Opens (fun c => c == k || c == ',') us → p e.skipBlank = none := fun he ho =>
    hstarts.fails ((he.skip (ho.mono (isVisible_of_closes hk))).not_any ho hfirst)
  refine ⟨hnone hd h.opens, ?_⟩
  obtain rfl | rfl := h
  · have ho : Opens (· == k) ([k :: closing] ++ rest) :=
      opens_cons closing rest (beq_self_eq_true k)
    refine commaStep_none hd (opens_cons closing rest hk) ho fun c hc => ?_
    rw [beq_iff_eq.1 hc]
    exact beq_eq_false_iff_ne.2 hne
  · obtain ⟨f, hsign, hf⟩ := sign_trails (Lexeme.exactly_takes [',']) hd (opens_cons [] [] rfl)
    rw [commaStep, comma, hsign]
    exact hnone hf (opens_cons closing rest (by simp))

/-- The comma behind the last element is read, and the bracket is left. -/
theorem ClosesList.comma (h : ClosesList (k :: closing) tail) (hk : isVisible k = true)
    (hne : k ≠ ',') {e : Cursor} (he : Trails (tail ++ rest) e.rest) :
    Trails ([k :: closing] ++ rest) ((sign comma e.skipBlank).getD e).rest := by
  obtain rfl | rfl := h
  · have ho : Opens (· == k) ([k :: closing] ++ rest) :=
      opens_cons closing rest (beq_self_eq_true k)
    have hnone : sign Production.comma e.skipBlank = none := by
      refine (sign_startsWith (exactly_startsWith ',' [])).fails
        ((he.skip (opens_cons closing rest hk)).not_any ho fun c hc => ?_)
      rw [beq_iff_eq.1 hc]
      exact beq_eq_false_iff_ne.2 hne
    rw [hnone]
    exact he
  · obtain ⟨f, hsign, hf⟩ := sign_trails (Lexeme.exactly_takes [',']) he (opens_cons [] [] rfl)
    rw [Production.comma, hsign]
    exact hf

/-- **A list between brackets**, where a comma may follow the last element. -/
theorem bracketed_accepts {i : Nat} {o : Char} {opening : List Char} (hcomma : stop ',' = true)
    (hclosing : stop k = true) (hk : isVisible k = true) (hne : k ≠ ',')
    (h : List.Forall₂ (fun x ws => Accepts n p stop ws (means x) ∧ Opens isVisible ws) xs wss)
    {slot : Slot} (hp : p.Reads slot) (hsolid : slot.isSolid = true) (hstarts : StartsWith p first)
    (hfirst : ∀ c, (c == k || c == ',') = true → first c = false)
    (hws : Bracketed (o :: opening) (k :: closing) wss ws)
    (hgood : ∀ text start ts, List.Forall₂ means xs ts → good (.node rule text start ts))
    (hn : i ≤ n + 1) (hm : i ≤ m + 1) :
    Accepts i (bracketed m rule (o :: opening) (k :: closing) p) second ws good := by
  intro c rest hlength hlaid _
  obtain ⟨tail, rfl, htail, hempty⟩ : ∃ tail, ws = (o :: opening) :: commaSeparated wss ++ tail ∧
      ClosesList (k :: closing) tail ∧ (xs = [] → tail = [k :: closing]) := by
    obtain rfl | ⟨hne, rfl⟩ := hws
    · exact ⟨_, rfl, .inl rfl, fun _ => rfl⟩
    · refine ⟨_, rfl, .inr rfl, ?_⟩
      rintro rfl
      cases h
      exact absurd rfl hne
  rw [List.append_assoc, List.cons_append] at hlaid
  obtain ⟨d, hopen, hd⟩ := sign_laid (Lexeme.exactly_takes (o :: opening)) hlaid
  have hshort := (only_exactly (o :: opening)).length_lt (List.cons_ne_nil _ _) hopen
  have hstop : Opens stop (tail ++ rest) := htail.opens.mono fun c hc => by
    rw [Bool.or_eq_true, beq_iff_eq, beq_iff_eq] at hc
    obtain rfl | rfl := hc
    · exact hclosing
    · exact hcomma
  obtain ⟨ts, e, hlist, hall, he⟩ := separated_accepts hcomma h hp hsolid (by omega)
    (by omega : d.rest.length ≤ m) hd hstop
    fun f hf => htail.ends hk hne hstarts hfirst hf
  have hclose : Trails ([k :: closing] ++ rest)
      (if ts.isEmpty then e else (sign Production.comma e.skipBlank).getD e).rest := by
    cases hall with
    | nil => rw [hempty rfl] at he; exact he
    | cons _ _ => exact htail.comma hk hne he
  obtain ⟨g, hsign, hg⟩ := sign_trails (Lexeme.exactly_takes (k :: closing)) hclose
    (opens_cons closing [] hk)
  refine ⟨branch rule c g ts, g, ?_, hgood _ _ ts hall, hg⟩
  refine Option.bind_eq_some_iff.2 ⟨d, hopen, ?_⟩
  dsimp only
  rw [hlist]
  exact Option.bind_eq_some_iff.2 ⟨g, hsign, rfl⟩

end Brackets

end Production

end Chainlet
