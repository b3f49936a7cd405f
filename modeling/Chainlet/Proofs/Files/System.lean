import Chainlet.Files.Basic
import Chainlet.Proofs.Outcome

/-!
# Proofs/Files/System — file systems whose operations may fail

What there is in a world is told by a `FileView`: which file a path leads to, wherever the path starts and
whatever links it goes through, what a file holds, and which paths lead to directories.  An operation that
fails changes nothing in this view; a directory that is made is there afterwards, and a file that is
written holds what was written and is the only one that changes (`FileSystem.ActsOn`).  Nothing is said
about when an operation fails.  In such a world **making a directory with those above it changes no file**,
whether it succeeds or not, and the directory is there if it succeeds (`makeDirectories_keeps`,
`isDirectory_makeDirectories`).
-/

namespace Chainlet

variable {W F α β : Type}

/-! ## Operations on worlds -/

/-- What an operation gives in a world, and the world after it. -/
def perform (operation : StateM W α) (w : W) : α × W := operation w

/-- Operations are performed one after the other. -/
theorem perform_bind (x : StateM W α) (f : α → StateM W β) (w : W) :
    perform (x >>= f) w = perform (f (perform x w).1) (perform x w).2 := rfl

/-- Whether an operation keeps what holds of a world. -/
def Preserves (I : W → Prop) (operation : StateM W α) : Prop := ∀ w, I w → I (perform operation w).2

section Preserves

variable {I : W → Prop} {x : StateM W α} {f : α → StateM W β}

theorem preserves_pure (a : α) : Preserves I (pure a : StateM W α) := fun _ h => h

/-- What two operations keep, one after the other keeps. -/
theorem Preserves.bind (hx : Preserves I x) (hf : ∀ a, Preserves I (f a)) : Preserves I (x >>= f) :=
  fun w h => hf _ _ (hx w h)

variable [FileSystem (StateM W)]

/-- What looking for directories and making them keeps. -/
structure KeptByDirectories (I : W → Prop) : Prop where
  isDirectory : ∀ path, Preserves I (FileSystem.isDirectory path : StateM W Bool)
  makeDirectory : ∀ path,
    Preserves I (FileSystem.makeDirectory path : StateM W (Except FileFault PUnit))

namespace KeptByDirectories

variable (h : KeptByDirectories I)

include h

/-- To accept a directory that was there already changes nothing. -/
theorem acceptDirectory (path : String) (made : Except FileFault PUnit) :
    Preserves I (acceptDirectory path made : StateM W (Except FileFault PUnit)) := by
  unfold Chainlet.acceptDirectory
  split
  · exact preserves_pure _
  · refine (h.isDirectory path).bind fun found => ?_
    split <;> exact preserves_pure _

/-- To ensure a directory preserves what the making of one does. -/
theorem ensureDirectory (path : String) :
    Preserves I (ensureDirectory path : StateM W (Except FileFault PUnit)) :=
  (h.makeDirectory path).bind fun made => h.acceptDirectory path made

/-- To ensure a directory and those above it preserves what the making of one does. -/
theorem ensureWithParents (plain : List String) : ∀ path : String,
    Preserves I (ensureWithParents path plain : StateM W (Except FileFault PUnit)) := by
  induction plain with
  | nil => exact fun _ => preserves_pure _
  | cons name above ih =>
    intro path
    refine (h.makeDirectory path).bind fun made => ?_
    split
    · refine (ih _).bind fun parents => ?_
      split
      · exact h.ensureDirectory path
      · exact preserves_pure _
    · exact h.acceptDirectory path made

/-- **Making a directory with those above it keeps what each of its steps keeps.** -/
theorem makeDirectories (path : String) :
    Preserves I (makeDirectories path : StateM W (Except FileFault PUnit)) :=
  h.ensureWithParents _ path

end KeptByDirectories

/-- What every operation on files keeps. -/
structure KeptByFiles (I : W → Prop) : Prop extends KeptByDirectories I where
  readFile : ∀ path, Preserves I (FileSystem.readFile path : StateM W (Except FileFault ByteArray))
  readInput : Preserves I (FileSystem.readInput : StateM W (Except FileFault ByteArray))
  writeFile : ∀ path text,
    Preserves I (FileSystem.writeFile path text : StateM W (Except FileFault PUnit))

end Preserves

/-! ## Views -/

/-- What there is in a world: the file that a path leads to, what a file holds, and whether a path leads
to a directory. -/
structure FileView (W F : Type) where
  leadsTo : W → String → Option F
  contents : W → F → Option ByteArray
  isDirectory : W → String → Bool

namespace FileView

variable (view : FileView W F)

/-- What every operation leaves: a path that leads to a file or directory goes on to do so. -/
structure KeepsPaths (w w' : W) : Prop where
  leadsTo : ∀ path file, view.leadsTo w path = some file → view.leadsTo w' path = some file
  isDirectory : ∀ path, view.isDirectory w path = true → view.isDirectory w' path = true

/-- Whether no file has changed from one world to another. -/
structure Keeps (w w' : W) : Prop extends view.KeepsPaths w w' where
  contents : ∀ file, view.contents w' file = view.contents w file

/-- Whether one file was written from one world to another, and no other one has changed. -/
structure Writes (path text : String) (w w' : W) : Prop extends view.KeepsPaths w w' where
  file : ∃ file, view.leadsTo w' path = some file ∧ view.contents w' file = some text.toUTF8 ∧
    ∀ other ≠ file, view.contents w' other = view.contents w other

variable {view} {w w' w'' : W}

/-- Two steps that keep the paths keep them together. -/
theorem KeepsPaths.trans (h : view.KeepsPaths w w') (h' : view.KeepsPaths w' w'') :
    view.KeepsPaths w w'' where
  leadsTo path file hfile := h'.leadsTo path file (h.leadsTo path file hfile)
  isDirectory path hpath := h'.isDirectory path (h.isDirectory path hpath)

theorem Keeps.refl (w : W) : view.Keeps w w := ⟨⟨fun _ _ h => h, fun _ h => h⟩, fun _ => rfl⟩

/-- Two steps that keep all files and directories keep them together. -/
theorem Keeps.trans (h : view.Keeps w w') (h' : view.Keeps w' w'') : view.Keeps w w'' :=
  ⟨h.toKeepsPaths.trans h'.toKeepsPaths, fun file => (h'.contents file).trans (h.contents file)⟩

variable (view) in
/-- What a write leaves behind: one file written, or nothing changed. -/
def Written (path : String) (w w' : W) : Option String → Prop
  | none => view.Keeps w w'
  | some text => view.Writes path text w w'

namespace Written

variable {path : String} {written : Option String}

/-- A file that is written changes where no path leads to. -/
theorem keepsPaths (h : view.Written path w w' written) : view.KeepsPaths w w' := by
  cases written with
  | none => exact h.toKeepsPaths
  | some text => exact h.toKeepsPaths

/-- **A file is changed only if it was written.** -/
theorem contents_eq (h : view.Written path w w' written) {file : F}
    (hother : written.isSome = true → view.leadsTo w' path ≠ some file) :
    view.contents w' file = view.contents w file := by
  cases written with
  | none => exact h.contents file
  | some text =>
    obtain ⟨written, hleads, -, hothers⟩ := h.file
    refine hothers file ?_
    rintro rfl
    exact hother rfl hleads

variable {first second : String} {found found' : Option String} {v : W} {file : F}

/-- **Of two writes each changes one file at most.** -/
theorem contents_eq_trans (h : view.Written first w v found) (h' : view.Written second v w' found')
    (hfirst : found.isSome = true → view.leadsTo w' first ≠ some file)
    (hsecond : found'.isSome = true → view.leadsTo w' second ≠ some file) :
    view.contents w' file = view.contents w file :=
  (h'.contents_eq hsecond).trans (h.contents_eq fun hsome hleads =>
    hfirst hsome (h'.keepsPaths.leadsTo _ _ hleads))

/-- **What the first of two writes has written stays**, unless the second one came into the same file. -/
theorem exists_file {text : String} (h : view.Written first w v (some text))
    (h' : view.Written second v w' found') :
    ∃ file, view.leadsTo w' first = some file ∧
      (view.contents w' file = some text.toUTF8 ∨
        view.leadsTo w' second = some file ∧ ∃ text', found' = some text') := by
  obtain ⟨file, hleads, hcontents, -⟩ := h.file
  refine ⟨file, h'.keepsPaths.leadsTo _ _ hleads, ?_⟩
  by_cases hsame : found'.isSome = true ∧ view.leadsTo w' second = some file
  · exact .inr ⟨hsame.2, Option.isSome_iff_exists.1 hsame.1⟩
  · exact .inl ((h'.contents_eq (not_and.1 hsame)).trans hcontents)

end Written

end FileView

/-- Whether the operations on the files of a world do what a view tells.  Reading, and an operation that
fails, changes nothing; a directory is found only where one is, and is there when it was made; and what
was written is in the one file that the path leads to. -/
structure FileSystem.ActsOn [FileSystem (StateM W)] (view : FileView W F) : Prop where
  readFile : ∀ path w, view.Keeps w (perform (FileSystem.readFile path) w).2
  readInput : ∀ w, view.Keeps w (perform FileSystem.readInput w).2
  isDirectory : ∀ path w, view.Keeps w (perform (FileSystem.isDirectory path) w).2 ∧
    ((perform (FileSystem.isDirectory path) w).1 = true →
      view.isDirectory (perform (FileSystem.isDirectory path) w).2 path = true)
  makeDirectory : ∀ path w, view.Keeps w (perform (FileSystem.makeDirectory path) w).2 ∧
    ((perform (FileSystem.makeDirectory path) w).1 = .ok ⟨⟩ →
      view.isDirectory (perform (FileSystem.makeDirectory path) w).2 path = true)
  writeFile : ∀ path text w,
    ((perform (FileSystem.writeFile path text) w).1 = .ok ⟨⟩ →
      view.Writes path text w (perform (FileSystem.writeFile path text) w).2) ∧
    ((perform (FileSystem.writeFile path text) w).1 ≠ .ok ⟨⟩ →
      view.Keeps w (perform (FileSystem.writeFile path text) w).2)

/-! ## Directories -/

/-- There is one way at least to begin a path. -/
theorem plainNames_ne_nil (path : String) : plainNames path ≠ [] := by
  have hnames : namesOf path ≠ [] := by
    rw [namesOf, ne_eq, List.map_eq_nil_iff]
    exact List.splitOn_ne_nil _ _
  unfold plainNames
  split
  · exact List.cons_ne_nil _ _
  · next hnil => exact absurd hnil hnames

section Directories

variable [FileSystem (StateM W)] {view : FileView W F} (laws : FileSystem.ActsOn view)

include laws

/-- Directories are looked for and made without a change to the files that were there in a world. -/
theorem keptByDirectories (w : W) : KeptByDirectories (view.Keeps w) where
  isDirectory path _ h := h.trans (laws.isDirectory path _).1
  makeDirectory path _ h := h.trans (laws.makeDirectory path _).1

/-- **Making a directory with those above it changes no file.** -/
theorem makeDirectories_keeps (path : String) (w : W) :
    view.Keeps w (perform (makeDirectories path : StateM W (Except FileFault PUnit)) w).2 :=
  (keptByDirectories laws w).makeDirectories path w (.refl w)

/-- A directory that is accepted is there, if it is there when it was made. -/
theorem isDirectory_acceptDirectory {path : String} {made : Except FileFault PUnit} {w : W}
    (hmade : made = .ok ⟨⟩ → view.isDirectory w path = true)
    (h : (perform (acceptDirectory path made) w).1 = .ok ⟨⟩) :
    view.isDirectory (perform (acceptDirectory path made) w).2 path = true := by
  cases made with
  | ok _ => exact hmade rfl
  | error f =>
    have hfound := (laws.isDirectory path w).2
    rw [acceptDirectory, perform_bind] at h ⊢
    generalize perform (FileSystem.isDirectory path : StateM W Bool) w = result at h hfound
    obtain ⟨found, v⟩ := result
    cases found with
    | true => exact hfound rfl
    | false => cases h

/-- A directory that was ensured is there. -/
theorem isDirectory_ensureDirectory {path : String} {w : W}
    (h : (perform (ensureDirectory path) w).1 = .ok ⟨⟩) :
    view.isDirectory (perform (ensureDirectory path) w).2 path = true :=
  isDirectory_acceptDirectory laws (laws.makeDirectory path w).2 h

/-- A directory that was ensured with those above it is there. -/
theorem isDirectory_ensureWithParents {path name : String} {above : List String} {w : W}
    (h : (perform (ensureWithParents path (name :: above)) w).1 = .ok ⟨⟩) :
    view.isDirectory (perform (ensureWithParents path (name :: above)) w).2 path = true := by
  have hmade := (laws.makeDirectory path w).2
  rw [ensureWithParents, perform_bind] at h ⊢
  generalize perform (FileSystem.makeDirectory path : StateM W _) w = result at h hmade ⊢
  obtain ⟨made, v⟩ := result
  dsimp only at h hmade ⊢
  split at h
  · rw [perform_bind] at h ⊢
    generalize perform (ensureWithParents (joinNames above.reverse) above : StateM W _) v = result at h ⊢
    obtain ⟨parents, v'⟩ := result
    cases parents with
    | ok _ => exact isDirectory_ensureDirectory laws h
    | error f => cases h
  · exact isDirectory_acceptDirectory laws hmade h

/-- **A directory that was made with those above it is there.** -/
theorem isDirectory_makeDirectories {path : String} {w : W}
    (h : (perform (makeDirectories path) w).1 = .ok ⟨⟩) :
    view.isDirectory (perform (makeDirectories path) w).2 path = true := by
  obtain ⟨name, above, hnames⟩ : ∃ name above, (plainNames path).reverse = name :: above :=
    List.exists_cons_of_ne_nil (List.reverse_ne_nil_iff.2 (plainNames_ne_nil path))
  rw [makeDirectories, hnames] at h ⊢
  exact isDirectory_ensureWithParents laws h

end Directories

end Chainlet
