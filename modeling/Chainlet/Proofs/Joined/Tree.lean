import Mathlib.Data.List.TakeWhile
import Chainlet.Proofs.Parallel.Elements

/-!
# Proofs/Joined/Tree — the parse tree of two sources with a line break between them

If all of the first source can be read, then the elements of the two sources joined are those of the
first one and, further on, those of the second one; and **where no element can be read in the second
source, none can be read at that place of the joined source** (`Tree.ofSource_joined`).
-/

namespace Chainlet

open Production Grammar

/-- Two sources with a line break between them. -/
def joined (first second : String) : String := first ++ "\n" ++ second

theorem toList_joined (first second : String) :
    (joined first second).toList = first.toList ++ '\n' :: second.toList := by
  simp [joined]

/-! ## Elements -/

variable {first second : List Char} {ts us : List Tree} {stop stop' : Cursor}

/-- The elements of the first source, with the second one behind them. -/
theorem steps_first {n : Nat} (h : elements (Cursor.mk first 0).skipBlank = (ts, stop))
    (hstop : stop.rest = []) (hn : (first ++ '\n' :: second).length ≤ n) :
    ∃ d, Steps (elementStep n) ⟨first ++ '\n' :: second, 0⟩ ts d ∧
      d.skipBlank = (Cursor.mk second (byteLength first + 1)).skipBlank := by
  obtain ⟨d, hsteps, -, hd⟩ := steps_of_elements h
  let whole : Cursor := ⟨first ++ '\n' :: second, 0⟩
  let start := whole.after (first.takeWhile isBlank) (first.dropWhile isBlank ++ '\n' :: second)
  have hwhole : whole.rest
      = first.takeWhile isBlank ++ (first.dropWhile isBlank ++ '\n' :: second) := by
    rw [← List.append_assoc, List.takeWhile_append_dropWhile]
  have hstart := (Cursor.reaches_after hwhole).length_le
  obtain ⟨d', hsteps', hd'⟩ := steps_further (.inr rfl) hsteps
    (show Further ('\n' :: second) 0 _ start from ⟨rfl, rfl⟩) (Nat.le_refl _) (hstart.trans hn)
  rw [List.map_congr_left fun t _ => t.shift_zero, List.map_id'] at hsteps'
  obtain ⟨e, hsteps'', he⟩ :=
    steps_from_skipBlank (Cursor.skipBlank_after hwhole List.all_takeWhile) hsteps'
  refine ⟨e, hsteps'', he.symm.trans ?_⟩
  -- nothing but blanks is left of the first source
  have hblank : (d.rest ++ ['\n']).all isBlank = true := by
    have hnil : d.rest.dropWhile isBlank = [] := by rw [← hstop, ← hd]; rfl
    rw [List.all_append, List.all_eq_true.2 (List.dropWhile_eq_nil_iff.1 hnil)]
    rfl
  obtain ⟨word, hword, hoffset⟩ :=
    (Cursor.reaches_skipBlank _).trans (hsteps.reaches fun _ _ _ => elementStep_reaches _)
  have hrest : d'.rest = (d.rest ++ ['\n']) ++ second := by
    rw [hd'.rest, List.append_assoc]
    rfl
  have hafter : d'.after (d.rest ++ ['\n']) second = ⟨second, byteLength first + 1⟩ := by
    have hfirst : byteLength first = byteLength word + byteLength d.rest :=
      (congrArg byteLength hword).trans (byteLength_append _ _)
    rw [Cursor.after, Cursor.mk.injEq, hd'.offset, hoffset, byteLength_append, hfirst]
    refine ⟨rfl, ?_⟩
    change 0 + byteLength word + 0 + (byteLength d.rest + 1) = _
    omega
  rw [← Cursor.skipBlank_after hrest hblank, hafter]

/-- The elements of the second source, further on. -/
theorem steps_second {k n : Nat} (h : elements (Cursor.mk second 0).skipBlank = (us, stop))
    (hn : second.length ≤ n) :
    ∃ d, Steps (elementStep n) ⟨second, k⟩ (us.map (Tree.shift k)) d ∧
      elementStep n d = none ∧ Further [] k stop d.skipBlank := by
  obtain ⟨d, hsteps, hnone, hd⟩ := steps_of_elements h
  have hbase : Further [] k ⟨second, 0⟩ ⟨second, k⟩ := ⟨second.append_nil.symm, k.zero_add.symm⟩
  have hstart := hbase.skipBlank (.inl rfl)
  have hlength := (Cursor.mk second k).length_skipBlank.trans hn
  obtain ⟨d', hsteps', hd'⟩ := steps_further (.inl rfl) hsteps hstart (Nat.le_refl _) hlength
  obtain ⟨e, hsteps'', he⟩ := steps_from_skipBlank (Cursor.skipBlank_skipBlank _) hsteps'
  refine ⟨e, hsteps'', ?_, ?_⟩
  · have hle := (hsteps.reaches fun _ _ _ => elementStep_reaches _).length_le
    have hle' := (hsteps'.reaches fun _ _ _ => elementStep_reaches _).length_le
    have hrel := elementStep_further (.inl rfl) hd' hle (hle'.trans hlength) (.inl rfl)
    rw [hnone, elementStep_congr he] at hrel
    obtain ⟨-, hnone'⟩ | ⟨r, r', hsome, -⟩ := rel_cases hrel
    · exact hnone'
    · cases hsome
  · rw [← hd, ← he]
    exact hd'.skipBlank (.inl rfl)

/-- **The elements of one source after those of the other.** -/
theorem elements_joined (hfirst : elements (Cursor.mk first 0).skipBlank = (ts, stop))
    (hstop : stop.rest = []) (hsecond : elements (Cursor.mk second 0).skipBlank = (us, stop')) :
    ∃ e, elements (Cursor.mk (first ++ '\n' :: second) 0).skipBlank
        = (ts ++ us.map (Tree.shift (byteLength first + 1)), e) ∧
      Further [] (byteLength first + 1) stop' e := by
  have hlength : second.length ≤ (first ++ '\n' :: second).length := by
    rw [List.length_append, List.length_cons]
    omega
  obtain ⟨d, hd, hskip⟩ := steps_first hfirst hstop (Nat.le_refl _)
  obtain ⟨e, he, hnone, hfurther⟩ := steps_second hsecond hlength
  obtain ⟨e', he', hskip'⟩ := steps_from_skipBlank hskip.symm he
  obtain ⟨f, hf, hskip''⟩ :=
    steps_from_skipBlank (Cursor.skipBlank_skipBlank _).symm (hd.append he')
  have hend : e.skipBlank = f.skipBlank := hskip'.trans hskip''
  refine ⟨f.skipBlank, ?_, hend ▸ hfurther⟩
  exact elements_eq (Cursor.length_skipBlank _) hf (elementStep_congr hend ▸ hnone)

/-! ## Trees -/

/-- **The tree of two sources joined.** -/
theorem Tree.ofSource_joined {first : String} {t : Tree} (h : ofSource first = .ok t)
    (second : String) :
    match ofSource second with
    | .ok u => ∃ v, ofSource (joined first second) = .ok v ∧ v.rule = .program ∧
        v.children = t.children ++ u.children.map (Tree.shift (first.utf8ByteSize + 1))
    | .error e => ofSource (joined first second)
        = .error { e with offset := e.offset + (first.utf8ByteSize + 1) } := by
  obtain ⟨text, start, ts, stop, rfl, hfirst, hstop⟩ := ofSource_eq_ok h
  generalize hsecond : elements (Cursor.ofSource second).skipBlank = run
  obtain ⟨us, stop'⟩ := run
  obtain ⟨e, hjoined, hfurther⟩ := elements_joined hfirst hstop hsecond
  have hrest : e.rest = stop'.rest := hfurther.rest.trans (List.append_nil _)
  rw [← utf8ByteSize_eq_byteLength] at hjoined hfurther
  have hwhole : ofSource (joined first second) = if stop'.rest.isEmpty then
        .ok (.node .program (String.ofList (dropTrailingBlank
          (Cursor.ofSource (joined first second)).skipBlank.rest))
          (some (Cursor.ofSource (joined first second)).skipBlank.offset)
          (ts ++ us.map (Tree.shift (first.utf8ByteSize + 1))))
      else .error (.atCursor e) := by
    rw [← hrest, ofSource]
    dsimp only
    rw [Cursor.ofSource, toList_joined, hjoined]
  rw [hwhole, ofSource]
  dsimp only
  rw [hsecond]
  dsimp only
  by_cases hempty : stop'.rest.isEmpty
  · rw [if_pos hempty, if_pos hempty]
    exact ⟨_, rfl, rfl, rfl⟩
  · rw [if_neg hempty, if_neg hempty, Unreadable.atCursor, Unreadable.atCursor, hrest,
      hfurther.offset]

end Chainlet
