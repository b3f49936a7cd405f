import Chainlet.Proofs.Code.Emits
import Chainlet.Proofs.Meaning.Compiled

/-!
# Proofs/Code/Layout — where the entries of a composite literal are stored

Offsets are words, and so is the number of words that is allocated: both wrap around.  The entry numbered
`i` is stored at `4 * i` modulo `2 ^ 32` (`StoresEntries.toNat_offset`), an array allocates one word for
each entry, and an object as many as its size modulo `2 ^ 32` has (`Literal.toNat_words`).  So **entries
stand one behind the other inside what is allocated exactly when there are fewer than `2 ^ 30` of them**
(`StoresEntries.layout_iff`).
-/

namespace Chainlet

variable {o : Options} {value : Literal} {entries : List StoredEntry} {code : List Instr}

/-! ## Offsets -/

theorem getElem?_offsetsFrom {offset w : UInt32} {n i : Nat} (h : (offsetsFrom offset n)[i]? = some w) :
    w = offset + UInt32.ofNat (4 * i) := by
  induction n generalizing offset i with
  | zero => cases h
  | succ n ih =>
    cases i with
    | zero =>
      obtain rfl : offset = w := Option.some.inj h
      exact (UInt32.add_zero offset).symm
    | succ i =>
      rw [offsetsFrom, List.getElem?_cons_succ] at h
      rw [ih h, Nat.mul_succ, UInt32.ofNat_add, UInt32.add_comm (UInt32.ofNat (4 * i)),
        ← UInt32.add_assoc]
      rfl

namespace StoresEntries

theorem length_eq (h : StoresEntries o value entries code) : entries.length = value.entries.length := by
  rw [← h.sources, List.length_map]

theorem offset_eq (h : StoresEntries o value entries code) {i : Nat} {entry : StoredEntry}
    (hentry : entries[i]? = some entry) : entry.offset = UInt32.ofNat (4 * i) := by
  have hoffset : (offsetsFrom 0 entries.length)[i]? = some entry.offset := by
    rw [← h.offsets, List.getElem?_map, hentry]
    rfl
  rw [getElem?_offsetsFrom hoffset, UInt32.zero_add]

theorem toNat_offset (h : StoresEntries o value entries code) {i : Nat} {entry : StoredEntry}
    (hentry : entries[i]? = some entry) : entry.offset.toNat = 4 * i % 2 ^ 32 := by
  rw [h.offset_eq hentry, UInt32.toNat_ofNat']

end StoresEntries

/-! ## Sizes -/

/-- The number of words that an array or object allocates: one for each element, or as many as the size
of the object has. -/
def Literal.wordCount : Literal → Nat
  | .array elements _ => elements.length
  | .object fields _ => 4 * fields.length % 2 ^ 32 / 4
  | _ => 0

theorem toNat_objectSize (fields : List Field) :
    (objectSize fields).toNat = 4 * fields.length % 2 ^ 32 := by
  rw [objectSize_eq, UInt32.toNat_ofNat']

/-- A literal that has code has a length that fits in a word if it is an array. -/
theorem Literal.toNat_words (h : value.code o = .ok code) : value.words.toNat = value.wordCount := by
  cases value with
  | array elements span =>
    rw [Literal.code] at h
    split at h
    · next count hcount =>
      have hlt : elements.length < UInt32.size := by
        unfold word? at hcount
        split at hcount
        · assumption
        · cases hcount
      exact UInt32.toNat_ofNat_of_lt' hlt
    · cases h
  | object fields span =>
    rw [Literal.words, UInt32.toNat_div, toNat_objectSize]
    rfl
  | tuple | string | int | float | boolean => rfl

/-! ## Layouts -/

/-- A layout that does not wrap around: one word is allocated for each entry, the entries stand in it one
behind the other, and no word computed on the way is too small for the number it stands for. -/
structure Literal.Layout (value : Literal) (entries : List StoredEntry) : Prop where
  words_eq : value.words.toNat = entries.length
  size_eq : ∀ fields span, value = .object fields span → (objectSize fields).toNat = 4 * fields.length
  offset_eq : ∀ i entry, entries[i]? = some entry → entry.offset.toNat = 4 * i
  /-- The offset behind an entry, also behind the last one. -/
  next_eq : ∀ entry ∈ entries, (entry.offset + wordSize).toNat = entry.offset.toNat + 4
  inside : ∀ entry ∈ entries, entry.offset.toNat + 4 ≤ 4 * value.words.toNat
  disjoint : entries.Pairwise fun a b => a.offset.toNat + 4 ≤ b.offset.toNat

namespace StoresEntries

/-- Among fewer than `2 ^ 30` entries no offset wraps around. -/
theorem offset_of_lt (h : StoresEntries o value entries code) (hlt : entries.length < compositeLimit)
    {i : Nat} {entry : StoredEntry} (hentry : entries[i]? = some entry) :
    i < entries.length ∧ entry.offset.toNat = 4 * i := by
  obtain ⟨hi, -⟩ := List.getElem?_eq_some_iff.1 hentry
  unfold compositeLimit at hlt
  rw [h.toNat_offset hentry]
  omega

/-- Among fewer than `2 ^ 30` entries the size does not wrap around. -/
theorem size_of_lt (h : StoresEntries o value entries code) (hlt : entries.length < compositeLimit) :
    value.words.toNat = entries.length ∧
      ∀ fields span, value = .object fields span → (objectSize fields).toNat = 4 * fields.length := by
  rw [Literal.toNat_words h.code_eq, h.length_eq]
  rw [h.length_eq] at hlt
  unfold compositeLimit at hlt
  cases value with
  | array elements span => exact ⟨rfl, nofun⟩
  | object fields span =>
    rw [Literal.entries, List.length_map] at hlt ⊢
    refine ⟨?_, fun fields' span' heq => ?_⟩
    · rw [Literal.wordCount]
      omega
    · cases heq
      rw [toNat_objectSize]
      omega
  | tuple | string | int | float | boolean => cases h.isComposite

/-- With fewer than `2 ^ 30` entries nothing wraps around. -/
theorem layout (h : StoresEntries o value entries code) (hlt : entries.length < compositeLimit) :
    value.Layout entries := by
  obtain ⟨hwords, hsize⟩ := h.size_of_lt hlt
  refine ⟨hwords, hsize, fun i entry hentry => (h.offset_of_lt hlt hentry).2, ?_, ?_, ?_⟩
  · intro entry hmem
    obtain ⟨i, hentry⟩ := List.mem_iff_getElem?.1 hmem
    obtain ⟨hi, hoffset⟩ := h.offset_of_lt hlt hentry
    rw [toNat_nextOffset hoffset (Nat.lt_of_le_of_lt hi hlt), hoffset]
    rfl
  · intro entry hmem
    obtain ⟨i, hentry⟩ := List.mem_iff_getElem?.1 hmem
    obtain ⟨hi, hoffset⟩ := h.offset_of_lt hlt hentry
    rw [hoffset, hwords]
    omega
  · refine List.pairwise_iff_getElem.2 fun i j hi hj hij => ?_
    rw [(h.offset_of_lt hlt (List.getElem?_eq_getElem hi)).2,
      (h.offset_of_lt hlt (List.getElem?_eq_getElem hj)).2]
    omega

/-- **A layout does not wrap around exactly when there are fewer than `2 ^ 30` entries.** -/
theorem layout_iff (h : StoresEntries o value entries code) :
    value.Layout entries ↔ value.entries.length < compositeLimit := by
  rw [← h.length_eq]
  refine ⟨fun hlayout => ?_, h.layout⟩
  unfold compositeLimit
  by_contra hlong
  -- the offset behind the last entry has no word
  have hi : entries.length - 1 < entries.length := by omega
  have hlast := hlayout.offset_eq _ _ (List.getElem?_eq_getElem hi)
  have hnext := hlayout.next_eq _ (List.getElem_mem hi)
  have hbound := (entries[entries.length - 1].offset + wordSize).toNat_lt
  omega

end StoresEntries

end Chainlet
