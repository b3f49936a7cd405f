import Chainlet.Files.Tree
import Chainlet.Proofs.Files.System

/-!
# Proofs/Files/Tree — what an operation on a tree changes

Making a directory and writing a file put an entry that is no link where neither a directory nor a link is.
Such a step leaves every walk that led somewhere (`FileTree.walk_put`), so paths go on to lead where they
led; and it changes the file at one location at most.  So **a tree with a standard input is a file system
that does what a view tells** (`FileWorld.actsOn`), with links and a current directory.

In a tree without links the last name of a path is that of its location (`FileTree.walk_last`), so files
of two names in one directory are in two places (`FileTree.locate_fileIn_ne`).
-/

namespace Chainlet

/-! ## Paths -/

/-- A file in a directory is named last in its path. -/
theorem toList_fileIn (directory file : String) :
    ∃ above, (fileIn directory file).toList = above ++ '/' :: file.toList := by
  unfold fileIn
  split
  · next hslash =>
    rw [String.endsWith_eq_endsWith_toSlice, String.Slice.endsWith_string_iff] at hslash
    obtain ⟨above, habove⟩ := hslash
    refine ⟨above, ?_⟩
    rw [String.toList_append, ← String.copy_toSlice (s := directory), ← habove, List.append_assoc]
    rfl
  · exact ⟨directory.toList, by rw [String.toList_append, String.toList_append, List.append_assoc]; rfl⟩

/-- The last name of the path of a file in a directory is the file's. -/
theorem namesOf_fileIn (directory : String) {file : String} (h : '/' ∉ file.toList) :
    ∃ names, namesOf (fileIn directory file) = names ++ [file] := by
  obtain ⟨above, habove⟩ := toList_fileIn directory file
  refine ⟨(above.splitOn '/').map String.ofList, ?_⟩
  rw [namesOf, habove, List.splitOn_append_cons_self, List.splitOn_eq_singleton h, List.map_append,
    List.map_singleton, String.ofList_toList]

/-- Whether an entry is a link. -/
def FileEntry.isLink : FileEntry → Bool
  | link _ => true
  | file _ | directory => false

namespace FileTree

variable {t t' : FileTree} {k l l' : Location} {name : String} {names : List String}
  {onLink onLink' : Location → List String → Except FileFault Location} {follow : Bool}
  {e : FileEntry}

/-! ## Entries -/

/-- The contents of the file at a location. -/
def fileAt? (t : FileTree) (l : Location) : Option ByteArray :=
  match t.find? l with
  | some (.file contents) => some contents
  | _ => none

/-- Entries of other locations may be dropped. -/
theorem lookup_filter_ne {entries : List (Location × FileEntry)} (h : l ≠ k) :
    (entries.filter fun (l', _) => l' != k).lookup l = entries.lookup l := by
  induction entries with
  | nil => rfl
  | cons entry entries ih =>
    obtain ⟨m, e⟩ := entry
    by_cases hm : m = k
    · subst hm
      rw [List.filter_cons_of_neg (by simp), List.lookup_cons, beq_eq_false_iff_ne.2 h, ih]
    · rw [List.filter_cons_of_pos (by simpa using hm), List.lookup_cons, List.lookup_cons, ih]

/-- What is put somewhere changes nothing elsewhere. -/
theorem find?_put_of_ne (t : FileTree) (e : FileEntry) (h : l ≠ k) :
    (t.put k e).find? l = t.find? l := by
  rw [find?, find?, put]
  dsimp only
  rw [List.lookup_cons, beq_eq_false_iff_ne.2 h, lookup_filter_ne h]

/-- A file that is put somewhere changes no other file. -/
theorem fileAt?_put_of_ne (t : FileTree) (e : FileEntry) (h : l ≠ k) :
    (t.put k e).fileAt? l = t.fileAt? l := by
  rw [fileAt?, fileAt?, find?_put_of_ne t e h]

/-- Whether a file or nothing is at a location, so that something may be put there. -/
structure IsFree (t : FileTree) (k : Location) : Prop where
  not_directory : t.find? k ≠ some .directory
  linkAt?_eq : t.linkAt? k = none

namespace IsFree

variable (hk : t.IsFree k)

include hk

/-- The root is a directory. -/
theorem ne_nil : k ≠ [] := by
  rintro rfl
  exact hk.not_directory rfl

/-- A directory is no free location. -/
theorem ne_of_directory (h : t.find? l = some .directory) : l ≠ k := by
  rintro rfl
  exact hk.not_directory h

/-- A file that is put somewhere is there. -/
theorem fileAt?_put_self (contents : ByteArray) :
    (t.put k (.file contents)).fileAt? k = some contents := by
  rw [fileAt?, find?_put_self t _ hk.ne_nil]

/-- Where no link is put, the links stay. -/
theorem linkAt?_put (he : e.isLink = false) (l : Location) :
    (t.put k e).linkAt? l = t.linkAt? l := by
  by_cases hl : l = k
  · subst hl
    rw [hk.linkAt?_eq, linkAt?, find?_put_self t _ hk.ne_nil]
    cases e with
    | file | directory => rfl
    | link path => cases he
  · rw [linkAt?, linkAt?, find?_put_of_ne t e hl]

end IsFree

/-- Where nothing is, something may be put. -/
theorem isFree_of_none (h : t.find? l = none) : t.IsFree l :=
  ⟨by rw [h]; nofun, by rw [linkAt?, h]⟩

/-! ## Walks -/

/-- How a walk goes on from where a name has led. -/
def goOn (t : FileTree) (onLink : Location → List String → Except FileFault Location) (follow : Bool)
    (l next : Location) (names : List String) : Except FileFault Location :=
  match t.linkAt? next with
  | some path =>
    if follow ∨ names ≠ [] then onLink (startOf path l) (namesOf path ++ names) else .ok next
  | none => t.walkNames onLink follow next names

/-- **A walk starts each step from a directory**, and goes on from where the name leads. -/
theorem walkNames_cons : t.walkNames onLink follow l (name :: names) = .ok l' ↔
    t.find? l = some .directory ∧
      ∃ next, stepFrom l name = .ok next ∧ t.goOn onLink follow l next names = .ok l' := by
  rw [walkNames.eq_def]
  dsimp only
  split
  · next hnone => simp [hnone]
  · next hfile => simp [hfile]
  · next hlink => simp [hlink]
  · next hdirectory => exact ⟨fun h => ⟨hdirectory, bind_eq_ok.1 h⟩, fun h => bind_eq_ok.2 h.2⟩

/-- **What is put where nothing but a file was leaves every walk that led somewhere**: no step starts
there, and the links stay. -/
theorem walkNames_put (hk : t.IsFree k) (he : e.isLink = false)
    (honLink : ∀ l names l', onLink l names = .ok l' → onLink' l names = .ok l')
    (h : t.walkNames onLink follow l names = .ok l') :
    (t.put k e).walkNames onLink' follow l names = .ok l' := by
  induction names generalizing l with
  | nil => exact h
  | cons name names ih =>
    obtain ⟨hdirectory, next, hnext, h⟩ := walkNames_cons.1 h
    have hdirectory' := (find?_put_of_ne t e (hk.ne_of_directory hdirectory)).trans hdirectory
    refine walkNames_cons.2 ⟨hdirectory', next, hnext, ?_⟩
    rw [goOn, hk.linkAt?_put he]
    rw [goOn] at h
    split at h
    · split at h
      · next hfollow =>
        rw [if_pos hfollow]
        exact honLink _ _ _ h
      · next hfollow =>
        rw [if_neg hfollow]
        exact h
    · exact ih h

/-- Walks lead where they did, whatever is put at a free location. -/
theorem walk_put (hk : t.IsFree k) (he : e.isLink = false) (links : Nat) :
    ∀ l names l', t.walk follow links l names = .ok l' →
      (t.put k e).walk follow links l names = .ok l' := by
  induction links with
  | zero =>
    intro l names l' h
    rw [walk] at h ⊢
    exact walkNames_put hk he (fun _ _ _ h => h) h
  | succ links ih =>
    intro l names l' h
    rw [walk] at h ⊢
    exact walkNames_put hk he ih h

/-- Slashes behind a directory lead nowhere else. -/
theorem walkNames_empty {empties : List String} (hempties : ∀ n ∈ empties, n = "")
    (hl : t.find? l = some .directory) : t.walkNames onLink follow l empties = .ok l := by
  induction empties with
  | nil => rfl
  | cons n empties ih =>
    obtain ⟨rfl, hrest⟩ := List.forall_mem_cons.1 hempties
    have hnone : t.linkAt? l = none := by rw [linkAt?, hl]
    refine walkNames_cons.2 ⟨hl, l, rfl, ?_⟩
    rw [goOn, hnone]
    exact ih hrest

/-- A walk to a directory gets there also if it follows every link, and with slashes behind it. -/
theorem walkNames_follow {empties : List String} (hempties : ∀ n ∈ empties, n = "")
    (hk : t.find? k = some .directory)
    (honLink : ∀ l names, onLink l names = .ok k → onLink' l (names ++ empties) = .ok k)
    (h : t.walkNames onLink follow l names = .ok k) :
    t.walkNames onLink' true l (names ++ empties) = .ok k := by
  induction names generalizing l with
  | nil =>
    cases h
    exact walkNames_empty hempties hk
  | cons name names ih =>
    obtain ⟨hdirectory, next, hnext, h⟩ := walkNames_cons.1 h
    refine walkNames_cons.2 ⟨hdirectory, next, hnext, ?_⟩
    rw [goOn] at h ⊢
    split at h
    · next path hpath =>
      split at h
      · rw [if_pos (.inl rfl), List.append_eq, ← List.append_assoc]
        exact honLink _ _ h
      · cases h
        rw [linkAt?, hk] at hpath
        cases hpath
    · exact ih h

/-- Names that are empty stay in a directory. -/
theorem walk_follow {empties : List String} (hempties : ∀ n ∈ empties, n = "")
    (hk : t.find? k = some .directory) (links : Nat) : ∀ l names,
    t.walk follow links l names = .ok k → t.walk true links l (names ++ empties) = .ok k := by
  induction links with
  | zero => exact fun l names h => walkNames_follow hempties hk (fun _ _ hlink => by cases hlink) h
  | succ links ih => exact fun l names h => walkNames_follow hempties hk ih h

/-- **A path goes on to lead where it led.** -/
theorem locate_put (hk : t.IsFree k) (he : e.isLink = false) {path : String}
    (h : t.locate path = .ok l) : (t.put k e).locate path = .ok l := by
  rw [locate] at h ⊢
  split at h
  · cases h
  · next hempty =>
    rw [if_neg hempty]
    exact walk_put hk he linkLimit _ _ _ h

/-! ## Operations -/

/-- **A file is written where no directory is.** -/
theorem writeFile_eq_ok {path text : String} : t.writeFile path text = .ok t' ↔
    ∃ l, t.locate path = .ok l ∧ t.IsFree l ∧ t' = t.put l (.file text.toUTF8) := by
  rw [writeFile, bind_eq_ok]
  refine exists_congr fun l => and_congr_right fun _ => ?_
  split
  · next hdirectory => exact ⟨nofun, fun h => absurd hdirectory h.1.not_directory⟩
  · next path hlink =>
    refine ⟨nofun, fun h => ?_⟩
    have hnone := h.1.linkAt?_eq
    rw [linkAt?, hlink] at hnone
    cases hnone
  · next hdirectory hlink =>
    rw [pure_eq_ok, Except.ok.injEq, eq_comm]
    refine ⟨fun h => ⟨⟨hdirectory, ?_⟩, h⟩, And.right⟩
    unfold linkAt?
    split
    · next path hpath => exact absurd hpath (hlink path)
    · rfl

/-- A directory is made where nothing is. -/
theorem makeDirectory_eq_ok {path : String} : t.makeDirectory path = .ok t' ↔
    ∃ l, t.locateNew path = .ok l ∧ t.find? l = none ∧ t' = t.put l .directory := by
  rw [makeDirectory, bind_eq_ok]
  refine exists_congr fun l => and_congr_right fun _ => ?_
  split
  · next e hsome => simp [hsome]
  · next hnone =>
    rw [pure_eq_ok, Except.ok.injEq, eq_comm]
    exact ⟨fun h => ⟨hnone, h⟩, And.right⟩

/-- The names of a path end with those that are empty. -/
theorem exists_append_dropWhile (path : String) : ∃ empties, (∀ n ∈ empties, n = "") ∧
    namesOf path = ((namesOf path).reverse.dropWhile (· = "")).reverse ++ empties := by
  refine ⟨((namesOf path).reverse.takeWhile (· = "")).reverse, fun n hn => ?_, ?_⟩
  · simpa using List.all_eq_true.1 List.all_takeWhile n (List.mem_reverse.1 hn)
  · rw [← List.reverse_append, List.takeWhile_append_dropWhile, List.reverse_reverse]

/-- **A directory that is made is where its path leads.** -/
theorem locate_put_directory {path : String} (h : t.locateNew path = .ok k) (hnone : t.find? k = none) :
    (t.put k .directory).locate path = .ok k := by
  have hk := isFree_of_none hnone
  obtain ⟨empties, hempties, hnames⟩ := exists_append_dropWhile path
  rw [locateNew] at h
  split at h
  · cases h
  · next hempty =>
    rw [locate, if_neg hempty, hnames]
    exact walk_follow hempties (find?_put_self t _ hk.ne_nil) linkLimit _ _
      (walk_put hk rfl linkLimit _ _ _ h)

/-- A path leads to a directory if there is one at its location. -/
theorem isDirectory_iff {path : String} :
    t.isDirectory path = true ↔ ∃ l, t.locate path = .ok l ∧ t.find? l = some .directory := by
  unfold isDirectory
  split
  · next f h => simp [h]
  · next l h =>
    rw [h]
    split
    · next hdirectory => simp [hdirectory]
    · next hother => simpa using hother

/-! ## Trees without links -/

/-- Whether there is no link in a tree. -/
def HasNoLinks (t : FileTree) : Prop := ∀ l, t.linkAt? l = none

/-- **The last name of a path is the last one of its location**, if there is no link on the way. -/
theorem walkNames_last (ht : t.HasNoLinks) (hname : name ≠ "" ∧ name ≠ "." ∧ name ≠ "..")
    (h : t.walkNames onLink follow l (names ++ [name]) = .ok l') : ∃ above, l' = above ++ [name] := by
  induction names generalizing l with
  | nil =>
    obtain ⟨-, next, hnext, h⟩ := walkNames_cons.1 h
    rw [goOn, ht next] at h
    cases h
    rw [stepFrom, if_neg (not_or.2 ⟨hname.1, hname.2.1⟩), if_neg hname.2.2] at hnext
    split at hnext
    · cases hnext
    · exact ⟨l, (Except.ok.inj hnext).symm⟩
  | cons first names ih =>
    obtain ⟨-, next, -, h⟩ := walkNames_cons.1 h
    rw [goOn, ht next] at h
    exact ih h

/-- The last name of a walk is the last one of where it leads. -/
theorem walk_last (ht : t.HasNoLinks) (hname : name ≠ "" ∧ name ≠ "." ∧ name ≠ "..") {links : Nat}
    (h : t.walk follow links l (names ++ [name]) = .ok l') : ∃ above, l' = above ++ [name] := by
  cases links with
  | zero =>
    rw [walk] at h
    exact walkNames_last ht hname h
  | succ links =>
    rw [walk] at h
    exact walkNames_last ht hname h

/-- Without links, a path that ends with a name leads to that name. -/
theorem locate_last {path : String} (ht : t.HasNoLinks) (hname : name ≠ "" ∧ name ≠ "." ∧ name ≠ "..")
    (hpath : namesOf path = names ++ [name]) (h : t.locate path = .ok l) :
    ∃ above, l = above ++ [name] := by
  rw [locate, hpath] at h
  split at h
  · cases h
  · exact walk_last ht hname h

/-- Files with two names are in two places. -/
theorem locate_fileIn_ne {directory first second : String} {l l' : Location}
    (ht : t.HasNoLinks) (hfirst : '/' ∉ first.toList ∧ first ≠ "" ∧ first ≠ "." ∧ first ≠ "..")
    (hsecond : '/' ∉ second.toList ∧ second ≠ "" ∧ second ≠ "." ∧ second ≠ "..")
    (hne : first ≠ second) (h : t.locate (fileIn directory first) = .ok l)
    (h' : t.locate (fileIn directory second) = .ok l') : l ≠ l' := by
  obtain ⟨names, hnames⟩ := namesOf_fileIn directory hfirst.1
  obtain ⟨names', hnames'⟩ := namesOf_fileIn directory hsecond.1
  obtain ⟨above, rfl⟩ := locate_last ht hfirst.2 hnames h
  obtain ⟨above', rfl⟩ := locate_last ht hsecond.2 hnames' h'
  intro heq
  exact hne (List.cons.inj (List.append_inj' heq rfl).2).1

end FileTree

/-! ## The world of a tree -/

namespace FileWorld

open FileTree

/-- The files of a tree are its locations. -/
def view : FileView FileWorld Location where
  leadsTo w path := (w.tree.locate path).toOption.filter fun l => (w.tree.fileAt? l).isSome
  contents w l := w.tree.fileAt? l
  isDirectory w path := w.tree.isDirectory path

variable {w w' : FileWorld} {k l : Location} {e : FileEntry} {path : String}

/-- A path leads to a file if the walk along it ends there. -/
theorem leadsTo_iff : view.leadsTo w path = some l ↔
    w.tree.locate path = .ok l ∧ ∃ contents, w.tree.fileAt? l = some contents := by
  simp [view, Option.filter_eq_some_iff, toOption_eq_some, Option.isSome_iff_exists]

/-- What is put where nothing but a file was leaves the paths, if a file is put where one was. -/
theorem keepsPaths_put (hk : w.tree.IsFree k) (he : e.isLink = false)
    (hfile : ∀ contents, w.tree.fileAt? k = some contents → ∃ now, (w.tree.put k e).fileAt? k = some now) :
    view.KeepsPaths w { w with tree := w.tree.put k e } where
  leadsTo path l h := by
    obtain ⟨hlocate, contents, hcontents⟩ := leadsTo_iff.1 h
    refine leadsTo_iff.2 ⟨locate_put hk he hlocate, ?_⟩
    by_cases hl : l = k
    · subst hl
      exact hfile contents hcontents
    · exact ⟨contents, (fileAt?_put_of_ne _ _ hl).trans hcontents⟩
  isDirectory path h := by
    obtain ⟨l, hlocate, hdirectory⟩ := isDirectory_iff.1 h
    exact isDirectory_iff.2 ⟨l, locate_put hk he hlocate,
      (find?_put_of_ne _ _ (hk.ne_of_directory hdirectory)).trans hdirectory⟩

/-- A directory that is made takes the place of no file. -/
theorem keeps_makeDirectory {tree : FileTree} (h : w.tree.makeDirectory path = .ok tree) :
    view.Keeps w { w with tree } := by
  obtain ⟨k, -, hnone, rfl⟩ := makeDirectory_eq_ok.1 h
  have hk := isFree_of_none hnone
  have hnofile : w.tree.fileAt? k = none := by rw [fileAt?, hnone]
  refine ⟨keepsPaths_put hk rfl fun contents hcontents => ?_, fun l => ?_⟩
  · rw [hnofile] at hcontents
    cases hcontents
  · change (w.tree.put k .directory).fileAt? l = w.tree.fileAt? l
    by_cases hl : l = k
    · subst hl
      rw [hnofile, fileAt?, find?_put_self _ _ hk.ne_nil]
    · exact fileAt?_put_of_ne _ _ hl

/-- A directory that is made is there. -/
theorem isDirectory_makeDirectory {tree : FileTree} (h : w.tree.makeDirectory path = .ok tree) :
    tree.isDirectory path = true := by
  obtain ⟨k, hlocate, hnone, rfl⟩ := makeDirectory_eq_ok.1 h
  exact isDirectory_iff.2 ⟨k, locate_put_directory hlocate hnone,
    find?_put_self _ _ (isFree_of_none hnone).ne_nil⟩

/-- A file that is written is the only one that changes. -/
theorem writes_writeFile {text : String} {tree : FileTree} (h : w.tree.writeFile path text = .ok tree) :
    view.Writes path text w { w with tree } := by
  obtain ⟨k, hlocate, hk, rfl⟩ := writeFile_eq_ok.1 h
  have hself := hk.fileAt?_put_self text.toUTF8
  exact ⟨keepsPaths_put hk rfl fun _ _ => ⟨_, hself⟩, k,
    leadsTo_iff.2 ⟨locate_put hk rfl hlocate, _, hself⟩, hself, fun l hl => fileAt?_put_of_ne _ _ hl⟩

/-- **A tree with a standard input does what its view tells.** -/
theorem actsOn : FileSystem.ActsOn view where
  readFile _ w := .refl w
  readInput w := .refl w
  isDirectory _ w := ⟨.refl w, id⟩
  makeDirectory path w := by
    change view.Keeps w (w.update (w.tree.makeDirectory path)).2 ∧
      ((w.update (w.tree.makeDirectory path)).1 = .ok ⟨⟩ →
        view.isDirectory (w.update (w.tree.makeDirectory path)).2 path = true)
    cases hmade : w.tree.makeDirectory path with
    | ok tree => exact ⟨keeps_makeDirectory hmade, fun _ => isDirectory_makeDirectory hmade⟩
    | error f => exact ⟨.refl w, nofun⟩
  writeFile path text w := by
    change ((w.update (w.tree.writeFile path text)).1 = .ok ⟨⟩ →
        view.Writes path text w (w.update (w.tree.writeFile path text)).2) ∧
      ((w.update (w.tree.writeFile path text)).1 ≠ .ok ⟨⟩ →
        view.Keeps w (w.update (w.tree.writeFile path text)).2)
    cases hwritten : w.tree.writeFile path text with
    | ok tree => exact ⟨fun _ => writes_writeFile hwritten, fun hnot => absurd rfl hnot⟩
    | error f => exact ⟨nofun, fun _ => .refl w⟩

/-- **No operation makes a link.** -/
theorem keepsNoLinks : KeptByFiles fun w : FileWorld => w.tree.HasNoLinks where
  readFile _ _ h := h
  readInput _ h := h
  isDirectory _ _ h := h
  makeDirectory path w h := by
    change (w.update (w.tree.makeDirectory path)).2.tree.HasNoLinks
    cases hmade : w.tree.makeDirectory path with
    | ok tree =>
      obtain ⟨k, -, hnone, rfl⟩ := makeDirectory_eq_ok.1 hmade
      exact fun l => ((isFree_of_none hnone).linkAt?_put rfl l).trans (h l)
    | error f => exact h
  writeFile path text w h := by
    change (w.update (w.tree.writeFile path text)).2.tree.HasNoLinks
    cases hwritten : w.tree.writeFile path text with
    | ok tree =>
      obtain ⟨k, -, hk, rfl⟩ := writeFile_eq_ok.1 hwritten
      exact fun l => (hk.linkAt?_put rfl l).trans (h l)
    | error f => exact h

end FileWorld

end Chainlet
