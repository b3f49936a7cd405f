import Chainlet.Proofs.Command.Run
import Chainlet.Proofs.Files.Tree

/-!
# Proofs/Command/Effect — what a command changes

**The exit code and the files of a command are told by what it writes** (`Arguments.Effect`): the program
as JSON and the text of its module, each in the one file that its path leads to.  What is written depends
on the source and the options alone.  Where both paths lead to one file the module is left in it; in a tree
without links they never do (`locate_pathOf_ne`).
-/

namespace Chainlet

section Command

variable {W F : Type} [FileSystem (StateM W)] {view : FileView W F} {a : Arguments} {p : Program}
  {v w w' : W} {x : Artifact}

/-! ## The files of a run -/

/-- The files of the artifacts are plain names. -/
theorem Artifact.file_plain (x : Artifact) :
    '/' ∉ x.file.toList ∧ x.file ≠ "" ∧ x.file ≠ "." ∧ x.file ≠ ".." := by
  cases x <;> decide

/-- The artifacts have files of their own. -/
theorem Artifact.file_ne {y : Artifact} (h : x ≠ y) : x.file ≠ y.file := by
  revert h
  cases x <;> cases y <;> decide

/-- In a tree without links two artifacts are in two places. -/
theorem locate_pathOf_ne {t : FileTree} {y : Artifact} {l l' : Location} (ht : t.HasNoLinks)
    (hne : x ≠ y) (h : t.locate (a.pathOf x) = .ok l) (h' : t.locate (a.pathOf y) = .ok l') : l ≠ l' :=
  FileTree.locate_fileIn_ne ht x.file_plain y.file_plain (Artifact.file_ne hne) h h'

/-- **What a run does**, told by what it writes. -/
structure Arguments.Effect (view : FileView W F) (a : Arguments) (w : W) (exit : Nat) (w' : W) :
    Prop where
  exit_le : exit ≤ 1
  /-- A run that is not ready fails, and changes no file. -/
  refused : (∀ p, ¬ a.Ready w p) → exit = 1 ∧ ∀ file, view.contents w' file = view.contents w file
  /-- A run that is ready has an output directory. -/
  directory : ∀ p, a.Ready w p → view.isDirectory w' a.outDir = true
  /-- A run succeeds when it writes every artifact that it is asked for. -/
  complete : exit = 0 ↔ ∀ x, a.emit.writes x = true → ∃ contents, a.Writes w x contents
  /-- The module that is written is that of the program, and its file holds the text of it. -/
  wat : ∀ contents, a.Writes w .wat contents →
    (∃ p md, a.program? w = some p ∧ p.module a.options = .ok md ∧ contents = md.text) ∧
    ∃ file, view.leadsTo w' (a.pathOf .wat) = some file ∧
      view.contents w' file = some contents.toUTF8
  /-- The file of the program that is written holds its JSON, unless the module was written into the same
  file afterwards. -/
  ast : ∀ contents, a.Writes w .ast contents →
    (∃ p, a.program? w = some p ∧ contents = p.toJson.text) ∧
    ∃ file, view.leadsTo w' (a.pathOf .ast) = some file ∧
      (view.contents w' file = some contents.toUTF8 ∨
        view.leadsTo w' (a.pathOf .wat) = some file ∧ ∃ text, a.Writes w .wat text)
  /-- No file changes but those that the paths of the artifacts written lead to. -/
  others : ∀ file, (∀ x contents, a.Writes w x contents → view.leadsTo w' (a.pathOf x) ≠ some file) →
    view.contents w' file = view.contents w file

/-- A run that does not write all that it is asked for exits with 1. -/
theorem Arguments.Effect.exit_eq_one {exit : Nat} (h : a.Effect view w exit w')
    (hnot : ¬ ∀ x, a.emit.writes x = true → ∃ contents, a.Writes w x contents) : exit = 1 :=
  Nat.le_antisymm h.exit_le (Nat.pos_of_ne_zero (mt h.complete.1 hnot))

/-- What a run writes is what the artifact of its program holds. -/
theorem Arguments.Writes.exists_program {contents : String} (h : a.Writes w x contents) :
    ∃ p, a.program? w = some p ∧ x.Holds a.options p contents := by
  obtain ⟨p, v, hready, -, hputs⟩ := h
  exact ⟨p, hready.program, hputs.holds⟩

/-! ## The command -/

/-- How the exit code of a command follows from the end of its run. -/
structure Exits (exit : Nat) (ended : Except Failure PUnit) : Prop where
  le : exit ≤ 1
  zero_iff : exit = 0 ↔ Succeeds ended

/-- The output directory of a run that is ready is there before it writes. -/
theorem Arguments.Ready.isDirectory_prepared (laws : FileSystem.ActsOn view) (h : a.Ready w p) :
    view.isDirectory (a.prepared w).2 a.outDir = true :=
  isDirectory_makeDirectories laws h.directory

/-- A run with a program and a directory has its effect: it writes what it comes to. -/
theorem Arguments.Ready.effect (laws : FileSystem.ActsOn view) (h : a.Ready w p) {exit : Nat}
    (hexit : Exits exit (perform (run a).run w).1) :
    a.Effect view w exit (perform (run a).run w).2 := by
  obtain ⟨found, hwrites, hsucceeds, v, hast, hwat⟩ := h.told laws
  have hsome : ∀ x, (found x).isSome = true ↔ ∃ contents, a.Writes w x contents := fun x =>
    Option.isSome_iff_exists.trans (exists_congr (hwrites x))
  refine ⟨hexit.le, fun hnot => absurd h (hnot p), fun _ _ => ?_, ?_, fun contents hx => ⟨?_, ?_⟩,
    fun contents hx => ⟨?_, ?_⟩, fun file hother => ?_⟩
  · exact (hast.keepsPaths.trans hwat.keepsPaths).isDirectory _ (h.isDirectory_prepared laws)
  · rw [hexit.zero_iff, hsucceeds]
    simp only [hsome]
  · obtain ⟨p, hprogram, _ | hmd⟩ := hx.exists_program
    exact ⟨p, _, hprogram, hmd, rfl⟩
  · rw [(hwrites .wat contents).2 hx] at hwat
    obtain ⟨file, hleads, hcontents, -⟩ := hwat.file
    exact ⟨file, hleads, hcontents⟩
  · obtain ⟨p, hprogram, _ | _⟩ := hx.exists_program
    exact ⟨p, hprogram, rfl⟩
  · rw [(hwrites .ast contents).2 hx] at hast
    simp only [← hwrites .wat]
    exact hast.exists_file hwat
  · have hnot : ∀ x, (found x).isSome = true →
        view.leadsTo (perform (run a).run w).2 (a.pathOf x) ≠ some file := fun x hx => by
      obtain ⟨contents, hcontents⟩ := (hsome x).1 hx
      exact hother x contents hcontents
    exact (hast.contents_eq_trans hwat (hnot .ast) (hnot .wat)).trans
      ((keeps_prepared laws a w).contents file)

/-- Every run is asked for an artifact. -/
theorem Emit.exists_writes (e : Emit) : ∃ x, e.writes x = true := by
  cases e with
  | ast => exact ⟨.ast, rfl⟩
  | wat => exact ⟨.wat, rfl⟩
  | all => exact ⟨.ast, rfl⟩

/-- A run without a program, or without a directory for its artifacts, writes nothing. -/
theorem effect_of_not_ready (laws : FileSystem.ActsOn view) (h : ∀ p, ¬ a.Ready w p) {exit : Nat}
    (hexit : Exits exit (perform (run a).run w).1) :
    a.Effect view w exit (perform (run a).run w).2 := by
  obtain ⟨hfails, hkeeps⟩ := perform_run_of_not_ready laws h
  have hwrites : ∀ x contents, ¬ a.Writes w x contents := fun _ _ ⟨p, _, hready, _⟩ => h p hready
  have hnonzero := mt hexit.zero_iff.1 hfails
  have hone : exit = 1 := Nat.le_antisymm hexit.le (Nat.pos_of_ne_zero hnonzero)
  refine ⟨hexit.le, fun _ => ⟨hone, hkeeps.contents⟩, fun p hready => absurd hready (h p),
    ⟨fun hzero => absurd hzero hnonzero, fun hall => ?_⟩, fun contents hx => absurd hx (hwrites _ _),
    fun contents hx => absurd hx (hwrites _ _), fun file _ => hkeeps.contents file⟩
  obtain ⟨x, hasked⟩ := a.emit.exists_writes
  obtain ⟨contents, hx⟩ := hall x hasked
  exact absurd hx (hwrites x contents)

/-- The command exits as its run ends. -/
theorem perform_command {arguments : List String} {outer : Option String}
    (h : Arguments.read arguments outer = .ok a) (w : W) :
    let ended := perform (command arguments outer : StateM W Outcome) w
    ended.2 = (perform (run a).run w).2 ∧ Exits ended.1.exit (perform (run a).run w).1 := by
  rw [command, h]
  dsimp only
  rw [perform_bind]
  obtain ⟨result, v⟩ := perform (run a).run w
  cases result with
  | ok _ => exact ⟨rfl, Nat.zero_le 1, fun _ => ⟨_, rfl⟩, fun _ => rfl⟩
  | error f => exact ⟨rfl, Nat.le_refl 1, nofun, nofun⟩

/-- **What a command does is told by what it writes.** -/
theorem effect_of_read (laws : FileSystem.ActsOn view) {arguments : List String}
    {outer : Option String} (h : Arguments.read arguments outer = .ok a) (w : W) :
    a.Effect view w (perform (command arguments outer : StateM W Outcome) w).1.exit
      (perform (command arguments outer : StateM W Outcome) w).2 := by
  obtain ⟨hworld, hexit⟩ := perform_command h w
  rw [hworld]
  by_cases hready : ∃ p, a.Ready w p
  · obtain ⟨p, hready⟩ := hready
    exact hready.effect laws hexit
  · exact effect_of_not_ready laws (not_exists.1 hready) hexit

/-- **In a tree without links a command has two places for its artifacts.** -/
theorem leadsTo_pathOf_ne {arguments : List String} {outer : Option String}
    (h : Arguments.read arguments outer = .ok a) {w : FileWorld} (hw : w.tree.HasNoLinks)
    {l l' : Location} :
    let w' := (perform (command arguments outer : StateM FileWorld Outcome) w).2
    FileWorld.view.leadsTo w' (a.pathOf .ast) = some l →
      FileWorld.view.leadsTo w' (a.pathOf .wat) = some l' → l ≠ l' := by
  intro w' hast hwat
  have hlinks : w'.tree.HasNoLinks := by
    rw [show w' = _ from (perform_command h w).1]
    exact preserves_run FileWorld.keepsNoLinks a w hw
  exact locate_pathOf_ne hlinks (by decide : Artifact.ast ≠ .wat)
    (FileWorld.leadsTo_iff.1 hast).1 (FileWorld.leadsTo_iff.1 hwat).1

/-! ## Two runs -/

/-- Runs that read the same text have the same program. -/
theorem Arguments.program?_congr {a' : Arguments} {w' : W}
    (h : a.sourceText? w = a'.sourceText? w') : a.program? w = a'.program? w' := by
  rw [Arguments.program?, h, Arguments.program?]

/-- **Two runs with one source and the same options write the same.** -/
theorem Arguments.Writes.contents_eq {a' : Arguments} {w' : W} {contents contents' : String}
    (h : a.Writes w x contents) (h' : a'.Writes w' x contents')
    (hsource : a.sourceText? w = a'.sourceText? w') (hoptions : a.options = a'.options) :
    contents = contents' := by
  obtain ⟨p, hprogram, hholds⟩ := h.exists_program
  obtain ⟨p', hprogram', hholds'⟩ := h'.exists_program
  rw [Arguments.program?_congr hsource, hprogram'] at hprogram
  cases hprogram
  rw [hoptions] at hholds
  exact hholds.unique hholds'

end Command

end Chainlet
