import Chainlet.Proofs.Spelling.Accepts
import Chainlet.Proofs.Spelling.Means

/-!
# Proofs/Spelling/Names — names, paths and types are read as they are written
-/

namespace Chainlet

namespace Grammar

open Production

variable {n : Nat} {stop : Char → Bool} {rest : List Word}

theorem name_accepts {w : Word} (h : Form.name w = true) :
    Accepts n name stop [w] (IsLeaf .name w) := leaf_accepts (Lexeme.name_takes h)

theorem keyword_accepts {w : Word} (h : Form.keyword w = true) :
    Accepts n keyword stop [w] (IsLeaf .keyword w) := leaf_accepts (Lexeme.keyword_takes h)

theorem opens_name {w : Word} (h : Form.name w = true) (us : List Word) :
    Opens isNameStart (w :: us) := by
  cases w with
  | nil => cases h
  | cons c cs =>
    rw [Form.name, Bool.and_eq_true] at h
    exact opens_cons cs us h.1

/-! ## Paths -/

/-- A path is its first segment and the others with a point in front of each. -/
theorem path_word (s : String) (ss : List String) (span : Option Span) :
    Path.word ⟨s :: ss, span⟩ = s.toList ++ ss.flatMap fun t => '.' :: t.toList := by
  rw [Path.word, Path.flatten]
  induction ss generalizing s with
  | nil => simp
  | cons t ss ih =>
    rw [String.intercalate_cons_cons, String.toList_append, ih, String.toList_append]
    simp

/-- Behind a segment there is a point or the end of the path. -/
theorem not_any_isNameChar_segments {tail : List Char} (htail : EndsWord tail) (ss : List String) :
    (ss.flatMap (fun t => '.' :: t.toList) ++ tail).head?.any isNameChar = false := by
  cases ss with
  | nil => exact htail.not_any fun _ => isVisible_of_isNameChar
  | cons s ss => rfl

theorem name_read {w tail : List Char} (h : Form.name w = true)
    (hstop : tail.head?.any isNameChar = false) {c : Cursor} (hc : c.rest = w ++ tail) :
    name c = some (.node .name (String.ofList w) (some c.offset) [], c.after w tail) := by
  rw [name, leaf, hc, Lexeme.name_append h hstop]
  rfl

theorem pointSteps {tail : List Char} (htail : EndsWord tail) {ss : List String}
    (h : ss.all (fun s => Form.name s.toList) = true) {c : Cursor}
    (hc : c.rest = ss.flatMap (fun t => '.' :: t.toList) ++ tail) :
    ∃ ts d, Steps pointStep c ts d ∧ List.Forall₂ (fun s t => IsLeaf .name s.toList t) ss ts ∧
      d.rest = tail := by
  induction ss generalizing c with
  | nil => exact ⟨[], c, .nil, .nil, hc⟩
  | cons s ss ih =>
    rw [List.all_cons, Bool.and_eq_true] at h
    rw [List.flatMap_cons, List.cons_append, List.cons_append, List.append_assoc] at hc
    have hsign : sign (.exactly ['.']) c = some (c.after ['.'] _) :=
      sign_eq_some.2 ⟨['.'], _, by rw [hc]; exact Lexeme.exactly_append ['.'] _, rfl⟩
    have hname := name_read h.1 (not_any_isNameChar_segments htail ss) (c := c.after ['.'] _) rfl
    have hstep : pointStep c = some _ := Option.bind_eq_some_iff.2 ⟨_, hsign, hname⟩
    obtain ⟨ts, d, hsteps, hall, hd⟩ := ih h.2 (c := (c.after ['.'] _).after s.toList _) rfl
    exact ⟨_ :: ts, d, .cons hstep hsteps, .cons ⟨_, rfl⟩ hall, hd⟩

theorem path_accepts {p : Path} (h : p.isWritable = true) :
    Accepts (n + 1) (path n) stop [p.word] p.MeantBy := by
  obtain ⟨segments, span⟩ := p
  obtain ⟨hne, hall⟩ := (Bool.and_eq_true ..).mp h
  intro c rest hlength hlaid _
  cases segments with
  | nil => cases hne
  | cons s ss =>
    rw [List.all_cons, Bool.and_eq_true] at hall
    obtain ⟨tail, htext, htail⟩ := hlaid.trails
    rw [path_word, List.append_assoc] at htext
    have hname := name_read hall.1 (not_any_isNameChar_segments htail.endsWord ss) htext
    have hlt := name_reads.length_lt rfl hname
    obtain ⟨ts, d, hsteps, hnames, hd⟩ :=
      pointSteps htail.endsWord hall.2 (c := c.after s.toList _) rfl
    have hstop : pointStep d = none := by
      have hpoint : sign (.exactly ['.']) d = none :=
        (sign_startsWith (exactly_startsWith '.' [])).fails
          (by rw [hd]; exact htail.endsWord.not_any fun c hc => by rw [beq_iff_eq.1 hc]; rfl)
      rw [pointStep, hpoint]
      rfl
    have hmore := repeated_eq_of_steps (n := n) pointStep_shortens hsteps hstop (by omega)
    refine ⟨branch .path c d (.node .name (String.ofList s.toList) (some c.offset) [] :: ts), d, ?_,
      path_means (.cons ⟨_, rfl⟩ hnames), by rw [hd]; exact htail⟩
    refine Option.bind_eq_some_iff.2 ⟨_, hname, ?_⟩
    change some (branch .path c (repeated pointStep n _).2 (_ :: (repeated pointStep n _).1),
      (repeated pointStep n _).2) = _
    rw [hmore]

/-! ## Types -/

theorem typeAscription_accepts {a : TypeAscription} (h : Form.name a.typeName.toList = true) :
    Accepts n typeAscription stop [[':'], a.typeName.toList]
      a.MeantBy := by
  intro c rest hlength hlaid ho
  obtain ⟨d, hsign, hd⟩ := sign_laid (Lexeme.exactly_takes [':']) hlaid
  have hshort := (only_exactly [':']).length_lt (List.cons_ne_nil _ _) hsign
  have hskip := d.length_skipBlank
  have hopens : Opens isVisible ([a.typeName.toList] ++ rest) :=
    (opens_name h rest).mono fun _ => isVisible_of_isNameStart
  obtain ⟨t, e, hread, hleaf, he⟩ := name_accepts (n := n) h (by omega) (hd.skip hopens) ho
  exact ⟨branch .typeAscription c e [t], e,
    Option.bind_eq_some_iff.2 ⟨d, hsign, Option.bind_eq_some_iff.2 ⟨_, hread, rfl⟩⟩,
    typeAscription_means hleaf, he⟩

/-- A name with its type, if it has one, in front of anything but a colon. -/
theorem typedName_accepts {x : TypedName} (h : x.isWritable = true)
    (hstop : ∀ c, stop c = true → isVisible c = true ∧ (c == ':') = false) :
    Accepts n typedName stop x.words x.MeantBy := by
  obtain ⟨name, ascription, span⟩ := x
  obtain ⟨hname, htype⟩ := (Bool.and_eq_true ..).mp h
  intro c rest hlength hlaid ho
  have hvisible : Opens isVisible rest := ho.mono fun c hc => (hstop c hc).1
  cases ascription with
  | none =>
    obtain ⟨t, d, hread, hleaf, hd⟩ := name_accepts (n := n) hname hlength hlaid ho
    have habsent := optionalPart_absent typeAscription_startsWith hd hvisible ho
      fun c hc => (hstop c hc).2
    refine ⟨branch .typedName c d [t, absent .optional d], d, ?_,
      typedName_means hleaf (.absent _ _), hd⟩
    refine Option.bind_eq_some_iff.2 ⟨_, hread, ?_⟩
    dsimp only
    rw [habsent]
    rfl
  | some a =>
    have hcolon : Opens isVisible ([[':'], a.typeName.toList] ++ rest) := opens_cons [] _ rfl
    obtain ⟨t, d, hread, hleaf, hd⟩ :=
      @name_accepts n isVisible _ hname c _ hlength hlaid hcolon
    have hlt := name_reads.length_lt rfl hread
    obtain ⟨u, e, hpart, hmeans, he⟩ :=
      optionalPart_present (typeAscription_accepts (n := n) htype) (opens_cons [] _ rfl)
        (by omega) hd ho
    refine ⟨branch .typedName c e [t, u], e, ?_, typedName_means hleaf (.present hmeans), he⟩
    refine Option.bind_eq_some_iff.2 ⟨_, hread, ?_⟩
    dsimp only
    rw [hpart]
    rfl

theorem opens_typedName {x : TypedName} (h : x.isWritable = true) :
    Opens isNameStart x.words := by
  obtain ⟨name, ascription, span⟩ := x
  obtain ⟨hname, -⟩ := (Bool.and_eq_true ..).mp h
  cases ascription with
  | none => exact opens_name hname []
  | some a => exact opens_name hname _

/-! ## Generics -/

theorem generics_accepts {g : Generics} (h : g.isWritable = true) :
    Accepts (n + 1) (generics n) stop g.words
      g.MeantBy := by
  obtain ⟨names, span⟩ := g
  obtain ⟨hne, hall⟩ := (Bool.and_eq_true ..).mp h
  intro c rest hlength hlaid _
  rw [Generics.words, List.append_assoc, List.cons_append] at hlaid
  obtain ⟨d, hopen, hd⟩ := sign_laid (Lexeme.exactly_takes ['<']) hlaid
  have hshort := (only_exactly ['<']).length_lt (List.cons_ne_nil _ _) hopen
  have heach : List.Forall₂ (fun s ws => Accepts n name isVisible ws (IsLeaf .name s.toList) ∧
      Opens isVisible ws) names (names.map fun s => [s.toList]) := by
    rw [List.forall₂_map_right_iff, List.forall₂_same]
    intro s hs
    have hname := List.all_eq_true.1 hall s hs
    exact ⟨name_accepts hname, (opens_name hname []).mono fun _ => isVisible_of_isNameStart⟩
  have hangle : Opens (· == '>') ([['>']] ++ rest) := opens_cons [] rest rfl
  have hvisible : Opens isVisible ([['>']] ++ rest) := opens_cons [] rest rfl
  obtain ⟨ts, e, hlist, hleaves, he⟩ := separated_accepts rfl heach name_reads rfl (by omega)
    (Nat.le_of_lt_succ (Nat.lt_trans hshort hlength)) hd hvisible fun f hf =>
      ⟨name_startsWith.fails ((hf.skip hvisible).not_any hangle fun c hc => by
        rw [beq_iff_eq.1 hc]; rfl),
      commaStep_none hf hvisible hangle fun c hc => by rw [beq_iff_eq.1 hc]; rfl⟩
  obtain ⟨f, hclose, hf⟩ := sign_trails (Lexeme.exactly_takes ['>']) he (opens_cons [] [] rfl)
  refine ⟨branch .generics c f ts, f, ?_, generics_means hleaves, hf⟩
  refine Option.bind_eq_some_iff.2 ⟨d, hopen, ?_⟩
  dsimp only
  rw [hlist]
  cases hleaves with
  | nil => cases hne
  | cons _ _ => exact Option.bind_eq_some_iff.2 ⟨f, hclose, rfl⟩

end Grammar

end Chainlet
