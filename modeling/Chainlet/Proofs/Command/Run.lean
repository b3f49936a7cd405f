import Chainlet.Command.Run
import Chainlet.Proofs.Files.System

/-!
# Proofs/Command/Run — the steps of a run

A run is `Ready` when it has read a program and made the output directory, and until then it changes no
file.  The artifacts follow one another (`Arguments.Comes`), each of them written or not
(`Arguments.Puts`): a write fails when the world lets it fail.  **A run that is ready writes one artifact
after the other** (`Arguments.Ready.told`).
-/

namespace Chainlet

variable {W F α β : Type}

/-! ## Steps of a run -/

/-- A run goes on with a second part only where the first one does not fail. -/
theorem perform_run_bind (x : ExceptT Failure (StateM W) α) (f : α → ExceptT Failure (StateM W) β)
    (w : W) : perform (x >>= f).run w = match perform x.run w with
      | (.ok a, v) => perform (f a).run v
      | (.error e, v) => (.error e, v) := by
  change perform (x.run >>= ExceptT.bindCont f) w = _
  rw [perform_bind]
  obtain ⟨r, v⟩ := perform x.run w
  cases r <;> rfl

/-- An operation on files never fails a run by itself. -/
theorem perform_liftM (operation : StateM W α) (w : W) :
    perform (liftM operation : ExceptT Failure (StateM W) α).run w =
      (.ok (perform operation w).1, (perform operation w).2) := rfl

/-- A step on files fails a run with its message, and leaves the world of the operation. -/
theorem perform_fileStep (message : String) (operation : StateM W (Except FileFault α)) (w : W) :
    perform (fileStep message operation).run w =
      ((perform operation w).1.mapError fun f => ⟨message, some f.message⟩,
        (perform operation w).2) := by
  rw [fileStep, perform_run_bind, perform_liftM]
  obtain ⟨r, v⟩ := perform operation w
  cases r <;> rfl

/-! ## What a run keeps -/

section Kept

variable {I : W → Prop}

/-- What both parts of a run preserve, the run preserves. -/
theorem preserves_run_bind {x : ExceptT Failure (StateM W) α} {f : α → ExceptT Failure (StateM W) β}
    (hx : Preserves I x.run) (hf : ∀ a, Preserves I (f a).run) : Preserves I (x >>= f).run := by
  intro w h
  rw [perform_run_bind]
  have hx := hx w h
  generalize perform x.run w = result at hx
  obtain ⟨r, v⟩ := result
  cases r with
  | ok a => exact hf a v hx
  | error e => exact hx

/-- A step on files preserves what its operation does. -/
theorem preserves_fileStep {message : String} {operation : StateM W (Except FileFault α)}
    (h : Preserves I operation) : Preserves I (fileStep message operation).run := by
  intro w hw
  rw [perform_fileStep]
  exact h w hw

variable [FileSystem (StateM W)]

/-- **What every operation on files keeps, a run keeps.** -/
theorem preserves_run (h : KeptByFiles I) (a : Arguments) : Preserves I (run a).run := by
  have hreading : Preserves I (a.reading : StateM W (Except FileFault ByteArray)) := by
    unfold Arguments.reading
    split
    · exact h.readFile _
    · exact h.readInput
  have hsource : Preserves I (readSource a).run := by
    refine preserves_run_bind (preserves_fileStep hreading) fun bytes => ?_
    split <;> exact fun _ hw => hw
  have hprogram : Preserves I (readProgram a).run := by
    refine preserves_run_bind hsource fun source => ?_
    split <;> exact fun _ hw => hw
  have hwrite : ∀ p x, Preserves I (writeArtifact a p x).run := by
    intro p x
    rw [writeArtifact]
    split
    · split
      · exact preserves_fileStep (h.writeFile _ _)
      · exact fun _ hw => hw
    · exact fun _ hw => hw
  refine preserves_run_bind hprogram fun p => preserves_run_bind ?_ fun _ => ?_
  · exact preserves_fileStep (h.makeDirectories a.outDir)
  · exact preserves_run_bind (hwrite p .ast) fun _ => hwrite p .wat

end Kept

/-! ## What a run writes -/

section Writes

variable [FileSystem (StateM W)] (a : Arguments)

/-- The text that a run reads in a world. -/
def Arguments.sourceText? (w : W) : Option String :=
  (perform (a.reading : StateM W (Except FileFault ByteArray)) w).1.toOption.bind String.fromUTF8?

/-- The program that a run reads in a world. -/
def Arguments.program? (w : W) : Option Program :=
  (a.sourceText? w).bind fun source => (Program.ofSource source).toOption

/-- Whether the output directory is there after the source was read, and the world then. -/
def Arguments.prepared (w : W) : Except FileFault PUnit × W :=
  perform (makeDirectories a.outDir) (perform (a.reading : StateM W (Except FileFault ByteArray)) w).2

/-- A run that has read a program and has an output directory for its artifacts. -/
structure Arguments.Ready (w : W) (p : Program) : Prop where
  program : a.program? w = some p
  directory : (a.prepared w).1 = .ok ⟨⟩

/-- **What an artifact of a program holds**: the program as JSON, or the text of its module. -/
inductive Artifact.Holds (o : Options) (p : Program) : Artifact → String → Prop where
  | ast : Holds o p .ast p.toJson.text
  | wat {md : Module} (h : p.module o = .ok md) : Holds o p .wat md.text

/-- Whether an artifact is written in a world: it is asked for, it has a text, and the write succeeds. -/
structure Arguments.Puts (p : Program) (v : W) (x : Artifact) (contents : String) : Prop where
  asked : a.emit.writes x = true
  holds : x.Holds a.options p contents
  done : (perform (FileSystem.writeFile (a.pathOf x) contents) v).1 = .ok ⟨⟩

/-- The worlds in which it is the turn of an artifact. The second one has its turn if the first one is
not asked for, and after it was written. -/
inductive Arguments.Comes (a : Arguments) (w : W) (p : Program) : Artifact → W → Prop where
  | ast : Comes a w p .ast (a.prepared w).2
  | wat : a.emit.writes .ast = false → Comes a w p .wat (a.prepared w).2
  | later {contents : String} : a.Puts p (a.prepared w).2 .ast contents →
      Comes a w p .wat (perform (FileSystem.writeFile (a.pathOf .ast) contents) (a.prepared w).2).2

/-- **What a run in a world writes.** -/
def Arguments.Writes (w : W) (x : Artifact) (contents : String) : Prop :=
  ∃ p v, a.Ready w p ∧ a.Comes w p x v ∧ a.Puts p v x contents

end Writes

/-! ## Reading -/

section Run

variable [FileSystem (StateM W)] {view : FileView W F} {a : Arguments} {p : Program} {v w : W}
  {x : Artifact}

/-- Reading the source gives its text, and leaves the world of the reading. -/
theorem perform_readSource (a : Arguments) (w : W) :
    (perform (readSource a).run w).1.toOption = a.sourceText? w ∧
      (perform (readSource a).run w).2 =
        (perform (a.reading : StateM W (Except FileFault ByteArray)) w).2 := by
  rw [Arguments.sourceText?, readSource, perform_run_bind, perform_fileStep]
  obtain ⟨read, v⟩ := perform (a.reading : StateM W (Except FileFault ByteArray)) w
  cases read with
  | error f => exact ⟨rfl, rfl⟩
  | ok bytes =>
    dsimp only [Except.mapError, Except.toOption, Option.bind_some]
    cases String.fromUTF8? bytes <;> exact ⟨rfl, rfl⟩

/-- A run reads its program, and nothing else happens. -/
theorem perform_readProgram (a : Arguments) (w : W) :
    (perform (readProgram a).run w).1.toOption = a.program? w ∧
      (perform (readProgram a).run w).2 =
        (perform (a.reading : StateM W (Except FileFault ByteArray)) w).2 := by
  obtain ⟨hsource, hworld⟩ := perform_readSource a w
  rw [Arguments.program?, ← hsource, ← hworld, readProgram, perform_run_bind]
  obtain ⟨read, v⟩ := perform (readSource a).run w
  cases read with
  | error f => exact ⟨rfl, rfl⟩
  | ok source =>
    dsimp only [Except.toOption, Option.bind_some]
    cases Program.ofSource source <;> exact ⟨rfl, rfl⟩

/-- What a run does behind its reading. -/
theorem perform_run (a : Arguments) (w : W) : perform (run a).run w =
    match perform (readProgram a).run w with
    | (.error e, v) => (.error e, v)
    | (.ok p, v) =>
      match perform (makeDirectories a.outDir) v with
      | (.error f, v) => (.error ⟨"failed to create directory " ++ a.outDir, some f.message⟩, v)
      | (.ok _, v) => perform (writeArtifacts a p).run v := by
  rw [run, perform_run_bind]
  obtain ⟨read, v⟩ := perform (readProgram a).run w
  cases read with
  | error f => rfl
  | ok p =>
    dsimp only
    rw [perform_run_bind, perform_fileStep]
    obtain ⟨made, v⟩ := perform (makeDirectories a.outDir) v
    cases made <;> rfl

/-- **A run that is ready writes its artifacts.** -/
theorem Arguments.Ready.perform_run (h : a.Ready w p) :
    perform (run a).run w = perform (writeArtifacts a p).run (a.prepared w).2 := by
  obtain ⟨hprogram, hworld⟩ := perform_readProgram a w
  have hread := toOption_eq_some.1 (hprogram.trans h.program)
  have hmade := h.directory
  rw [Arguments.prepared, ← hworld] at hmade ⊢
  rw [Chainlet.perform_run]
  generalize perform (readProgram a).run w = read at hread hmade
  obtain ⟨r, v⟩ := read
  cases hread
  dsimp only at hmade ⊢
  generalize perform (makeDirectories a.outDir) v = made at hmade
  obtain ⟨r, v⟩ := made
  cases hmade
  rfl

/-- Reading the source keeps all files and directories. -/
theorem FileSystem.ActsOn.reading (laws : FileSystem.ActsOn view) (a : Arguments) (w : W) :
    view.Keeps w (perform (a.reading : StateM W (Except FileFault ByteArray)) w).2 := by
  unfold Arguments.reading
  split
  · exact laws.readFile _ w
  · exact laws.readInput w

/-- Until it writes its artifacts a run changes no file. -/
theorem keeps_prepared (laws : FileSystem.ActsOn view) (a : Arguments) (w : W) :
    view.Keeps w (a.prepared w).2 :=
  (laws.reading a w).trans (makeDirectories_keeps laws a.outDir _)

/-- **A run that is not ready fails, and changes no file.** -/
theorem perform_run_of_not_ready (laws : FileSystem.ActsOn view) (h : ∀ p, ¬ a.Ready w p) :
    ¬ Succeeds (perform (run a).run w).1 ∧ view.Keeps w (perform (run a).run w).2 := by
  obtain ⟨hprogram, hworld⟩ := perform_readProgram a w
  have hread := laws.reading a w
  have hprepared := keeps_prepared laws a w
  have hunready : ∀ p, (perform (readProgram a).run w).1 = .ok p → (a.prepared w).1 ≠ .ok ⟨⟩ :=
    fun p hread hmade => h p ⟨hprogram.symm.trans (toOption_eq_some.2 hread), hmade⟩
  rw [Arguments.prepared, ← hworld] at hunready hprepared
  rw [← hworld] at hread
  rw [perform_run]
  generalize perform (readProgram a).run w = result at hunready hprepared hread
  obtain ⟨read, v⟩ := result
  cases read with
  | error e => exact ⟨nofun, hread⟩
  | ok p =>
    dsimp only at hunready hprepared ⊢
    generalize perform (makeDirectories a.outDir) v = result at hunready hprepared
    obtain ⟨made, v'⟩ := result
    cases made with
    | error f => exact ⟨nofun, hprepared⟩
    | ok _ => exact absurd rfl (hunready p rfl)

/-! ## Writing -/

/-- The text that a run has for an artifact is what the artifact holds. -/
theorem Artifact.text_eq_ok {contents : String} :
    x.text a p = .ok contents ↔ x.Holds a.options p contents := by
  cases x with
  | ast =>
    rw [text, Except.ok.injEq]
    constructor
    · rintro rfl
      exact .ast
    · rintro ⟨⟩
      rfl
  | wat =>
    rw [text]
    constructor
    · intro h
      split at h
      · next md hmd =>
        cases h
        exact .wat hmd
      · cases h
    · rintro (_ | hmd)
      rw [hmd]

/-- An artifact holds one text. -/
theorem Artifact.Holds.unique {o : Options} {contents contents' : String}
    (h : x.Holds o p contents) (h' : x.Holds o p contents') : contents = contents' := by
  cases h with
  | ast =>
    cases h'
    rfl
  | wat hmd =>
    cases h' with
    | wat hmd' =>
      rw [hmd] at hmd'
      cases hmd'
      rfl

/-- An artifact that is not asked for is not written. -/
theorem perform_writeArtifact_of_not (v : W) (h : a.emit.writes x = false) :
    perform (writeArtifact a p x).run v = (.ok ⟨⟩, v) := by
  rw [writeArtifact, if_neg (Bool.eq_false_iff.1 h)]
  rfl

/-- An artifact without contents fails the run, and nothing is written. -/
theorem perform_writeArtifact_of_error {f : Failure} (v : W) (h : a.emit.writes x = true)
    (htext : x.text a p = .error f) : perform (writeArtifact a p x).run v = (.error f, v) := by
  rw [writeArtifact, if_pos h, htext]
  rfl

/-- An artifact with contents is put into its file. -/
theorem perform_writeArtifact_of_holds {contents : String} (v : W) (h : a.emit.writes x = true)
    (hholds : x.Holds a.options p contents) : perform (writeArtifact a p x).run v =
      ((perform (FileSystem.writeFile (a.pathOf x) contents) v).1.mapError
          fun f => ⟨"failed to write output file " ++ a.pathOf x, some f.message⟩,
        (perform (FileSystem.writeFile (a.pathOf x) contents) v).2) := by
  rw [writeArtifact, if_pos h, Artifact.text_eq_ok.2 hholds]
  exact perform_fileStep _ _ v

/-- A turn in which nothing is written leaves the files, and fails if the artifact is asked for. -/
theorem writeArtifact_of_not_puts (laws : FileSystem.ActsOn view)
    (h : ∀ contents, ¬ a.Puts p v x contents) :
    view.Keeps v (perform (writeArtifact a p x).run v).2 ∧
      (a.emit.writes x = true → ¬ Succeeds (perform (writeArtifact a p x).run v).1) := by
  cases hasked : a.emit.writes x with
  | false =>
    rw [perform_writeArtifact_of_not v hasked]
    exact ⟨.refl v, nofun⟩
  | true =>
    cases htext : x.text a p with
    | error f =>
      rw [perform_writeArtifact_of_error v hasked htext]
      exact ⟨.refl v, nofun⟩
    | ok contents =>
      have hholds := Artifact.text_eq_ok.1 htext
      have hnot : (perform (FileSystem.writeFile (a.pathOf x) contents) v).1 ≠ .ok ⟨⟩ :=
        fun hdone => h contents ⟨hasked, hholds, hdone⟩
      have hkeeps := (laws.writeFile (a.pathOf x) contents v).2 hnot
      rw [perform_writeArtifact_of_holds v hasked hholds]
      refine ⟨hkeeps, fun _ => ?_⟩
      cases hfault : (perform (FileSystem.writeFile (a.pathOf x) contents) v).1 with
      | ok _ => exact absurd hfault hnot
      | error f => exact nofun

/-- The turn of an artifact: what was written in it, if anything. -/
structure Arguments.Turn (view : FileView W F) (a : Arguments) (p : Program) (v : W) (x : Artifact)
    (found : Option String) : Prop where
  puts : ∀ contents, found = some contents ↔ a.Puts p v x contents
  written : view.Written (a.pathOf x) v (perform (writeArtifact a p x).run v).2 found
  succeeds : Succeeds (perform (writeArtifact a p x).run v).1 ↔
    (a.emit.writes x = true → found.isSome = true)

/-- **An artifact is written in its turn, or nothing changes.** -/
theorem exists_turn (laws : FileSystem.ActsOn view) (a : Arguments) (p : Program) (v : W)
    (x : Artifact) : ∃ found, a.Turn view p v x found := by
  by_cases hputs : ∃ contents, a.Puts p v x contents
  · obtain ⟨contents, h⟩ := hputs
    have hwrites := (laws.writeFile (a.pathOf x) contents v).1 h.done
    have hturn := perform_writeArtifact_of_holds v h.asked h.holds
    refine ⟨some contents, fun c => ⟨?_, fun hc => ?_⟩, ?_, ?_⟩
    · rintro ⟨⟩
      exact h
    · rw [h.holds.unique hc.holds]
    · rw [hturn]
      exact hwrites
    · rw [hturn, h.done]
      exact ⟨fun _ _ => rfl, fun _ => ⟨⟨⟩, rfl⟩⟩
  · have hnot := not_exists.1 hputs
    obtain ⟨hkeeps, hfails⟩ := writeArtifact_of_not_puts laws hnot
    refine ⟨none, fun c => ⟨nofun, fun h => absurd h (hnot c)⟩, hkeeps, fun h ha => absurd h (hfails ha),
      fun h => ?_⟩
    have hasked : a.emit.writes x = false := Bool.eq_false_iff.2 fun ha => absurd (h ha) nofun
    rw [perform_writeArtifact_of_not v hasked]
    exact ⟨⟨⟩, rfl⟩

/-! ## Both artifacts -/

/-- The tree comes right behind the preparations. -/
theorem comes_ast_iff : a.Comes w p .ast v ↔ v = (a.prepared w).2 := by
  constructor
  · rintro ⟨⟩
    rfl
  · rintro rfl
    exact .ast

/-- **The second artifact has its turn when the first one's has succeeded.** -/
theorem comes_wat_iff (laws : FileSystem.ActsOn view) : a.Comes w p .wat v ↔
    Succeeds (perform (writeArtifact a p .ast).run (a.prepared w).2).1 ∧
      v = (perform (writeArtifact a p .ast).run (a.prepared w).2).2 := by
  constructor
  · rintro (_ | hskip | h)
    · rw [perform_writeArtifact_of_not _ hskip]
      exact ⟨⟨⟨⟩, rfl⟩, rfl⟩
    · rw [perform_writeArtifact_of_holds _ h.asked h.holds, h.done]
      exact ⟨⟨⟨⟩, rfl⟩, rfl⟩
  · rintro ⟨hsucceeds, rfl⟩
    by_cases hputs : ∃ contents, a.Puts p (a.prepared w).2 .ast contents
    · obtain ⟨contents, h⟩ := hputs
      rw [perform_writeArtifact_of_holds _ h.asked h.holds]
      exact .later h
    · have hfails := (writeArtifact_of_not_puts laws (not_exists.1 hputs)).2
      have hskip : a.emit.writes .ast = false := Bool.eq_false_iff.2 fun h => hfails h hsucceeds
      rw [perform_writeArtifact_of_not _ hskip]
      exact .wat hskip

/-- A run that is ready writes an artifact as it comes to it. -/
theorem Arguments.Ready.writes_iff (h : a.Ready w p) {contents : String} :
    a.Writes w x contents ↔ ∃ v, a.Comes w p x v ∧ a.Puts p v x contents := by
  constructor
  · rintro ⟨p', v, hready, hwrites⟩
    cases Option.some.inj (h.program.symm.trans hready.program)
    exact ⟨v, hwrites⟩
  · rintro ⟨v, hwrites⟩
    exact ⟨p, v, h, hwrites⟩

/-- The tree is written as soon as the run is prepared. -/
theorem Arguments.Ready.writes_ast_iff (h : a.Ready w p) (contents : String) :
    a.Writes w .ast contents ↔ a.Puts p (a.prepared w).2 .ast contents := by
  rw [h.writes_iff]
  simp only [comes_ast_iff, exists_eq_left]

/-- The module is written once the tree is, if that is asked for. -/
theorem Arguments.Ready.writes_wat_iff (laws : FileSystem.ActsOn view) (h : a.Ready w p)
    (contents : String) : a.Writes w .wat contents ↔
      Succeeds (perform (writeArtifact a p .ast).run (a.prepared w).2).1 ∧
        a.Puts p (perform (writeArtifact a p .ast).run (a.prepared w).2).2 .wat contents := by
  rw [h.writes_iff]
  simp only [comes_wat_iff laws, and_assoc, exists_and_left, exists_eq_left]

/-- What was found of each artifact. -/
def foundOf (ast wat : Option String) : Artifact → Option String
  | .ast => ast
  | .wat => wat

/-- The artifacts of a run: what was written of each, and the world between. -/
structure Arguments.Told (view : FileView W F) (a : Arguments) (w : W)
    (result : Except Failure PUnit × W) (found : Artifact → Option String) : Prop where
  writes : ∀ x contents, found x = some contents ↔ a.Writes w x contents
  succeeds : Succeeds result.1 ↔ ∀ x, a.emit.writes x = true → (found x).isSome = true
  written : ∃ v, view.Written (a.pathOf .ast) (a.prepared w).2 v (found .ast) ∧
    view.Written (a.pathOf .wat) v result.2 (found .wat)

/-- **A run that is ready writes one artifact after the other.** -/
theorem Arguments.Ready.told (laws : FileSystem.ActsOn view) (h : a.Ready w p) :
    ∃ found, a.Told view w (perform (run a).run w) found := by
  obtain ⟨first, hputs, hchanged, hsucceeds⟩ := exists_turn laws a p (a.prepared w).2 .ast
  have hast := fun contents => (hputs contents).trans (h.writes_ast_iff contents).symm
  have hwat := h.writes_wat_iff laws
  rw [h.perform_run, writeArtifacts, perform_run_bind]
  generalize perform (writeArtifact a p .ast).run (a.prepared w).2 = turn at hchanged hsucceeds hwat ⊢
  obtain ⟨ended, v⟩ := turn
  cases ended with
  | error f =>
    refine ⟨foundOf first none, ⟨?_, ?_, v, hchanged, .refl v⟩⟩
    · rintro (_ | _) contents
      · exact hast contents
      · exact ⟨nofun, fun hwrites => absurd ((hwat contents).1 hwrites).1 nofun⟩
    · exact ⟨nofun, fun hall => hsucceeds.2 (hall .ast)⟩
  | ok _ =>
    obtain ⟨second, hsecond⟩ := exists_turn laws a p v .wat
    refine ⟨foundOf first second, ⟨?_, ?_, v, hchanged, hsecond.written⟩⟩
    · rintro (_ | _) contents
      · exact hast contents
      · exact (hsecond.puts contents).trans
          ((hwat contents).trans (and_iff_right ⟨_, rfl⟩)).symm
    · refine hsecond.succeeds.trans ⟨fun hwritten x => ?_, fun hall => hall .wat⟩
      cases x with
      | ast => exact hsucceeds.1 ⟨_, rfl⟩
      | wat => exact hwritten

end Run

end Chainlet
