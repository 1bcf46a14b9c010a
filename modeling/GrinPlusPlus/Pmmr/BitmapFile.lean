import Mathlib.Tactic.IntervalCases
import GrinPlusPlus.Pmmr.Bitmap

/-!
# The file of a leaf set

`BitmapFile` keeps the bytes that were written since the last commit in a map over the mapped
file; reading looks in the map first, and past the end of the file there are zeros. The rest of
the development takes the leaf set of a range for a function `ℕ → Bool`
(`GrinPlusPlus.PruneableFiles.leafSet`) with a copy that is permanent. This file is why it may:
`GrinPlusPlus.BitmapFile.contents` is the function, `GrinPlusPlus.BitmapFile.committed` the
permanent copy, and every method does to the two what the corresponding operation of
`GrinPlusPlus.LeafSet` does.

The one place where this is not obvious is `Rewind`, which only clears bits up to the end of the
bytes it knows of (`GrinPlusPlus.BitmapFile.contents_eq_false`).
-/

namespace GrinPlusPlus

/-! ### Bits of bytes -/

namespace BitmapChunk

theorem toNat_bitToByte {k : ℕ} (hk : k < 8) : (bitToByte k).toNat = 2 ^ (7 - k) := by
  interval_cases k <;> rfl

/-- The mask of a bit selects it. -/
theorem and_bitToByte_ne_zero_iff (byte : UInt8) {k : ℕ} (hk : k < 8) :
    byte &&& bitToByte k ≠ 0 ↔ byte.toNat.testBit (7 - k) = true := by
  rw [ne_eq, ← UInt8.toNat_inj, UInt8.toNat_and, toNat_bitToByte hk, Nat.and_two_pow]
  have hpos : 0 < 2 ^ (7 - k) := Nat.two_pow_pos _
  cases byte.toNat.testBit (7 - k) with
  | false => simp
  | true => simp

theorem testBit_or_bitToByte (byte : UInt8) {k j : ℕ} (hk : k < 8) :
    (byte ||| bitToByte k).toNat.testBit j =
      (byte.toNat.testBit j || decide (j = 7 - k)) := by
  rw [UInt8.toNat_or, Nat.testBit_or, toNat_bitToByte hk, Nat.testBit_two_pow]
  congr 1
  exact decide_eq_decide.mpr eq_comm

theorem testBit_and_not_bitToByte (byte : UInt8) {k j : ℕ} (hk : k < 8) (hj : j < 8) :
    (byte &&& (0xff ^^^ bitToByte k)).toNat.testBit j =
      (byte.toNat.testBit j && !decide (j = 7 - k)) := by
  have hall : (0xff : UInt8).toNat = 2 ^ 8 - 1 := rfl
  rw [UInt8.toNat_and, Nat.testBit_and, UInt8.toNat_xor, Nat.testBit_xor, toNat_bitToByte hk,
    Nat.testBit_two_pow, hall, Nat.testBit_two_pow_sub_one, decide_eq_true hj, Bool.true_xor]
  congr 2
  exact decide_eq_decide.mpr eq_comm

theorem bitToByte_eq {k : ℕ} (hk : k < 8) : ~~~bitToByte k = 0xff ^^^ bitToByte k := by
  interval_cases k <;> rfl

theorem isSet_filled_zero (b : ℕ) : (filled 0).isSet b = false := by
  have hzero : (List.replicate 128 (0 : UInt8)).getD (b / 8) 0 = 0 := by
    by_cases h : b / 8 < 128
    · exact List.getD_replicate _ h
    · exact List.getD_eq_default _ _ (by rw [List.length_replicate]; omega)
  rw [isSet, filled, hzero]
  exact Nat.zero_testBit _

/-- `BitmapChunk::Set` sets one bit. -/
theorem isSet_set (c : BitmapChunk) {b : ℕ} (hb : b < 1024) (value : Bool) (i : ℕ) :
    (c.set b value).isSet i = if i = b then value else c.isSet i := by
  have hk : b % 8 < 8 := Nat.mod_lt b (by decide)
  have hlt : b / 8 < c.bytes.length := by
    rw [c.length_eq]
    omega
  have hbytes : (c.set b value).bytes.getD (i / 8) 0 =
      if i / 8 = b / 8 then
        (if value then c.bytes.getD (b / 8) 0 ||| bitToByte (b % 8)
          else c.bytes.getD (b / 8) 0 &&& (0xff ^^^ bitToByte (b % 8)))
      else c.bytes.getD (i / 8) 0 := by
    rw [← bitToByte_eq hk, set]
    dsimp only
    rw [List.getD_eq_getElem?_getD, List.getElem?_set]
    by_cases h : b / 8 = i / 8
    · rw [if_pos h, if_pos h.symm, if_pos hlt, Option.getD_some]
    · rw [if_neg h, if_neg (Ne.symm h), List.getD_eq_getElem?_getD]
  rw [isSet, hbytes]
  by_cases hbyte : i / 8 = b / 8
  · rw [if_pos hbyte]
    cases value with
    | true =>
      rw [if_pos rfl, testBit_or_bitToByte _ hk, isSet, hbyte]
      by_cases hi : i = b
      · rw [if_pos hi, hi, decide_eq_true rfl, Bool.or_true]
      · rw [if_neg hi, decide_eq_false (by omega), Bool.or_false]
    | false =>
      rw [if_neg (by decide), testBit_and_not_bitToByte _ hk (by omega), isSet, hbyte]
      by_cases hi : i = b
      · rw [if_pos hi, hi, decide_eq_true rfl, Bool.not_true, Bool.and_false]
      · rw [if_neg hi, decide_eq_false (by omega), Bool.not_false, Bool.and_true]
  · rw [if_neg hbyte, if_neg (fun hi => hbyte (by rw [hi])), isSet]

end BitmapChunk

theorem byteOf_testBit (byte : UInt8) : byteOf (fun b => byte.toNat.testBit b) = byte := by
  have hbits : Nat.ofBits (fun i : Fin 8 => byte.toNat.testBit i) = byte.toNat := by
    rw [Nat.ofBits_testBit]
    exact Nat.mod_eq_of_lt byte.toNat_lt
  rw [byteOf, hbits, UInt8.ofNat_toNat]

theorem testBit_byteOf (f : ℕ → Bool) {b : ℕ} (hb : b < 8) :
    (byteOf f).toNat.testBit b = f b := by
  have hlt : Nat.ofBits (fun i : Fin 8 => f i) < 2 ^ 8 := Nat.ofBits_lt_two_pow _
  rw [byteOf, UInt8.toNat_ofNat_of_lt' (by simpa [UInt8.size] using hlt),
    Nat.testBit_ofBits_lt _ _ hb]

namespace BitmapChunk

/-- A chunk is its bits. -/
theorem ext_isSet {c c' : BitmapChunk} (h : ∀ b < 1024, c.isSet b = c'.isSet b) : c = c' := by
  have hbytes : c.bytes = c'.bytes := by
    refine List.ext_getElem (by rw [c.length_eq, c'.length_eq]) fun j hj hj' => ?_
    have hbyte : ∀ b, (c.bytes[j].toNat.testBit b) = (c'.bytes[j].toNat.testBit b) := by
      intro b
      rw [c.length_eq] at hj
      by_cases hb : b < 8
      · have hbit := h (8 * j + (7 - b)) (by omega)
        have hdiv : (8 * j + (7 - b)) / 8 = j := by omega
        have hmod : 7 - (8 * j + (7 - b)) % 8 = b := by omega
        rwa [isSet, isSet, hdiv, hmod, List.getD_eq_getElem, List.getD_eq_getElem] at hbit
      · have hpow : 2 ^ 8 ≤ 2 ^ b := Nat.pow_le_pow_right (by decide) (by omega)
        rw [Nat.testBit_lt_two_pow (lt_of_lt_of_le c.bytes[j].toNat_lt hpow),
          Nat.testBit_lt_two_pow (lt_of_lt_of_le c'.bytes[j].toNat_lt hpow)]
    exact UInt8.toNat_inj.mp (Nat.eq_of_testBit_eq hbyte)
  cases c
  cases c'
  cases hbytes
  rfl

end BitmapChunk

namespace LeafSet

theorem length_chunk (s : ℕ → Bool) (i : ℕ) : (chunk s i).length = 128 := by
  rw [chunk, List.length_map, List.length_range]

/-- The bytes of a chunk, as a chunk. -/
def bitmapChunk (s : ℕ → Bool) (i : ℕ) : BitmapChunk :=
  ⟨chunk s i, length_chunk s i⟩

theorem isSet_bitmapChunk (s : ℕ → Bool) (i : ℕ) {b : ℕ} (hb : b < 1024) :
    (bitmapChunk s i).isSet b = s (1024 * i + b) := by
  have hj : b / 8 < 128 := by omega
  have hindex : 8 * (128 * i + b / 8) + (7 - (7 - b % 8)) = 1024 * i + b := by omega
  show ((chunk s i).getD (b / 8) 0).toNat.testBit (7 - b % 8) = _
  rw [chunk, List.getD_eq_getElem _ _ (by simpa using hj),
    List.getElem_map, List.getElem_range, getByte, testBit_byteOf _ (by omega), hindex]

end LeafSet

open BitmapChunk

/-! ### The file -/

/-- `BitmapFile`: the map of the modified bytes, the last write first, and the mapped file. -/
structure BitmapFile where
  /-- `m_modifiedBytes`. -/
  modifiedBytes : List (ℕ × UInt8)
  /-- `m_mmap`. -/
  mmap : List UInt8

namespace BitmapFile

/-- `BitmapFile::GetByte`. -/
def getByte (byteIndex : ℕ) (f : BitmapFile) : UInt8 :=
  match f.modifiedBytes.lookup byteIndex with
  | some byte => byte
  | none => f.mmap.getD byteIndex 0

/-- `BitmapFile::IsSet`. -/
def isSet (leafIndex : ℕ) (f : BitmapFile) : Bool :=
  decide (f.getByte (leafIndex / 8) &&& bitToByte (leafIndex % 8) ≠ 0)

/-- Note a byte in `m_modifiedBytes`. -/
def modify (byteIndex : ℕ) (byte : UInt8) (f : BitmapFile) : BitmapFile :=
  { f with modifiedBytes := (byteIndex, byte) :: f.modifiedBytes }

/-- `BitmapFile::Set`. -/
def set (leafIndex : ℕ) (f : BitmapFile) : BitmapFile :=
  f.modify (leafIndex / 8) (f.getByte (leafIndex / 8) ||| bitToByte (leafIndex % 8))

/-- `BitmapFile::Unset`. -/
def unset (leafIndex : ℕ) (f : BitmapFile) : BitmapFile :=
  f.modify (leafIndex / 8) (f.getByte (leafIndex / 8) &&& (0xff ^^^ bitToByte (leafIndex % 8)))

/-- `BitmapFile::GetNumBytes`: one byte more than is mapped, and up to the last modified byte. -/
def getNumBytes (f : BitmapFile) : ℕ :=
  max (f.modifiedBytes.foldr (fun p size => max (p.1 + 1) size) 0)
    (if f.mmap.isEmpty then 0 else f.mmap.length + 1)

/-- `BitmapFile::Rewind`. -/
def rewind (numLeaves : ℕ) (leavesToAdd : List ℕ) (f : BitmapFile) : BitmapFile :=
  let f := leavesToAdd.foldl (fun f leafIndex => f.set leafIndex) f
  let currentSize := f.getNumBytes * 8
  (List.range' numLeaves (currentSize - numLeaves)).foldl (fun f i => f.unset i) f

/-- Write one byte to the file, filling the gap in front of it with zeros. -/
def writeByte (file : List UInt8) (position : ℕ) (byte : UInt8) : List UInt8 :=
  if position < file.length then file.set position byte
  else file ++ List.replicate (position - file.length) 0 ++ [byte]

/-- `BitmapFile::Commit`. -/
def commit (f : BitmapFile) : BitmapFile :=
  ⟨[], f.modifiedBytes.foldr (fun p file => writeByte file p.1 p.2) f.mmap⟩

/-- `BitmapFile::Rollback`. -/
def rollback (f : BitmapFile) : BitmapFile :=
  ⟨[], f.mmap⟩

/-! ### The set -/

/-- The set of the leaves that are set. -/
def contents (f : BitmapFile) : ℕ → Bool :=
  fun i => f.isSet i

/-- The set on the disk. -/
def committed (f : BitmapFile) : ℕ → Bool :=
  f.rollback.contents

variable {f : BitmapFile}

theorem contents_eq (i : ℕ) : f.contents i = (f.getByte (i / 8)).toNat.testBit (7 - i % 8) := by
  rw [contents, isSet, Bool.eq_iff_iff, decide_eq_true_iff,
    and_bitToByte_ne_zero_iff _ (Nat.mod_lt i (by decide))]

theorem getByte_modify (i : ℕ) (byte : UInt8) (j : ℕ) :
    (f.modify i byte).getByte j = if j = i then byte else f.getByte j := by
  rw [getByte, modify, List.lookup_cons]
  by_cases h : j = i
  · simp [h]
  · rw [beq_eq_false_iff_ne.mpr h, if_neg h, getByte]

/-- **A byte of the file is the byte of the set**: the first leaf is the highest bit. -/
theorem getByte_eq (j : ℕ) : f.getByte j = LeafSet.getByte f.contents j := by
  have hbits : (fun b : ℕ => f.contents (8 * j + (7 - b))) =
      fun b => if b < 8 then (f.getByte j).toNat.testBit b else f.contents (8 * j + (7 - b)) := by
    funext b
    split
    · next hb =>
      have hdiv : (8 * j + (7 - b)) / 8 = j := by omega
      have hmod : 7 - (8 * j + (7 - b)) % 8 = b := by omega
      rw [contents_eq, hdiv, hmod]
    · rfl
  rw [LeafSet.getByte, hbits, byteOf]
  simp only [Fin.is_lt, if_true]
  exact (byteOf_testBit _).symm

/-- The bytes that `LeafSet::Root` reads are the ones of the set. -/
theorem map_getByte (i : ℕ) :
    ((List.range 128).map fun j => f.getByte (128 * i + j)) = LeafSet.chunk f.contents i := by
  rw [LeafSet.chunk]
  exact List.map_congr_left fun j _ => getByte_eq _

theorem contents_set (i : ℕ) : (f.set i).contents = LeafSet.add i f.contents := by
  funext j
  have hi : i % 8 < 8 := Nat.mod_lt i (by decide)
  rw [LeafSet.add, contents_eq, set, getByte_modify]
  by_cases hj : j = i
  · rw [hj, if_pos rfl, testBit_or_bitToByte _ hi, Function.update_self, decide_eq_true rfl,
      Bool.or_true]
  · rw [Function.update_of_ne hj, contents_eq]
    split
    · next hbyte =>
      rw [testBit_or_bitToByte _ hi, hbyte, decide_eq_false (by omega), Bool.or_false]
    · rfl

theorem contents_unset (i : ℕ) : (f.unset i).contents = LeafSet.remove i f.contents := by
  funext j
  have hi : i % 8 < 8 := Nat.mod_lt i (by decide)
  rw [LeafSet.remove, contents_eq, unset, getByte_modify]
  by_cases hj : j = i
  · rw [hj, if_pos rfl, testBit_and_not_bitToByte _ hi (by omega), Function.update_self,
      decide_eq_true rfl, Bool.not_true, Bool.and_false]
  · rw [Function.update_of_ne hj, contents_eq]
    split
    · next hbyte =>
      rw [testBit_and_not_bitToByte _ hi (by omega), hbyte, decide_eq_false (by omega),
        Bool.not_false, Bool.and_true]
    · rfl

/-- No bit is set behind the bytes that `GetNumBytes` counts. -/
theorem contents_eq_false {i : ℕ} (h : f.getNumBytes * 8 ≤ i) : f.contents i = false := by
  have hkeys : ∀ l : List (ℕ × UInt8), l.foldr (fun p size => max (p.1 + 1) size) 0 ≤ i / 8 →
      l.lookup (i / 8) = none := by
    intro l
    induction l with
    | nil => exact fun _ => rfl
    | cons p l ih =>
      intro hl
      rw [List.foldr_cons] at hl
      rw [List.lookup_cons, beq_eq_false_iff_ne.mpr (by omega)]
      exact ih (by omega)
  rw [getNumBytes] at h
  have hmmap : f.mmap.length ≤ i / 8 := by
    by_cases hempty : f.mmap.isEmpty
    · rw [List.isEmpty_iff.mp hempty]
      exact Nat.zero_le _
    · rw [if_neg hempty] at h
      omega
  have hnone := hkeys f.modifiedBytes (by omega)
  have hzero : f.getByte (i / 8) = 0 := by
    rw [getByte, hnone]
    exact List.getD_eq_default _ _ hmmap
  rw [contents_eq, hzero]
  exact Nat.zero_testBit _

/-- **A rewind** sets the leaves to add and clears every leaf from the number on. -/
theorem contents_rewind (numLeaves : ℕ) (leavesToAdd : List ℕ) :
    (f.rewind numLeaves leavesToAdd).contents =
      LeafSet.rewind numLeaves leavesToAdd f.contents := by
  have hset : ∀ (leaves : List ℕ) (f : BitmapFile) (j : ℕ),
      (leaves.foldl (fun f leafIndex => f.set leafIndex) f).contents j =
        (f.contents j || leaves.contains j) := by
    intro leaves
    induction leaves with
    | nil => simp
    | cons i leaves ih =>
      intro f j
      rw [List.foldl_cons, ih, contents_set, LeafSet.add, List.contains_cons]
      by_cases hj : j = i
      · simp [hj]
      · rw [Function.update_of_ne hj, beq_eq_false_iff_ne.mpr hj, Bool.false_or]
  have hunset : ∀ (count start : ℕ) (f : BitmapFile) (j : ℕ),
      ((List.range' start count).foldl (fun f i => f.unset i) f).contents j =
        (f.contents j && !decide (start ≤ j ∧ j < start + count)) := by
    intro count
    induction count with
    | zero =>
      intro start f j
      rw [List.range'_zero, List.foldl_nil, decide_eq_false (by omega), Bool.not_false,
        Bool.and_true]
    | succ count ih =>
      intro start f j
      rw [List.range'_succ, List.foldl_cons, ih, contents_unset, LeafSet.remove]
      by_cases hj : j = start
      · rw [hj, Function.update_self, decide_eq_true (by omega : start ≤ start ∧ _)]
        simp
      · rw [Function.update_of_ne hj]
        congr 2
        exact decide_eq_decide.mpr (by omega)
  funext j
  rw [rewind, hunset, hset, LeafSet.rewind]
  by_cases hj : j < numLeaves
  · rw [decide_eq_true hj, decide_eq_false (by omega), Bool.not_false, Bool.and_true,
      Bool.true_and]
  · rw [decide_eq_false hj, Bool.false_and]
    by_cases hsize : j < (leavesToAdd.foldl (fun f leafIndex => f.set leafIndex) f).getNumBytes * 8
    · rw [decide_eq_true (by omega), Bool.not_true, Bool.and_false]
    · have hfalse := contents_eq_false (Nat.le_of_not_lt hsize)
      rw [hset] at hfalse
      rw [hfalse, Bool.false_and]

theorem getD_writeByte (file : List UInt8) (position : ℕ) (byte : UInt8) (j : ℕ) :
    (writeByte file position byte).getD j 0 = if j = position then byte else file.getD j 0 := by
  rw [writeByte]
  split
  · next hlt =>
    rw [List.getD_eq_getElem?_getD, List.getElem?_set, List.getD_eq_getElem?_getD]
    by_cases hj : position = j
    · rw [if_pos hj, if_pos hj.symm, if_pos hlt, Option.getD_some]
    · rw [if_neg hj, if_neg (Ne.symm hj)]
  · next hge =>
    have hlen : (file ++ List.replicate (position - file.length) 0).length = position := by
      rw [List.length_append, List.length_replicate]
      omega
    rcases Nat.lt_trichotomy j position with hj | rfl | hj
    · rw [if_neg hj.ne, List.getD_append _ _ _ _ (by omega)]
      by_cases hj' : j < file.length
      · rw [List.getD_append _ _ _ _ hj']
      · rw [List.getD_append_right _ _ _ _ (by omega), List.getD_replicate _ (by omega),
          List.getD_eq_default _ _ (by omega)]
    · rw [if_pos rfl, List.getD_append_right _ _ _ _ (by omega), hlen, Nat.sub_self]
      rfl
    · have hend : (file ++ List.replicate (position - file.length) 0 ++ [byte]).length ≤ j := by
        rw [List.length_append, hlen, List.length_singleton]
        exact hj
      rw [if_neg hj.ne', List.getD_eq_default _ _ hend, List.getD_eq_default _ _ (by omega)]

theorem getByte_commit (j : ℕ) : f.commit.getByte j = f.getByte j := by
  obtain ⟨modifiedBytes, mmap⟩ := f
  have hfold : ∀ l : List (ℕ × UInt8),
      (l.foldr (fun p file => writeByte file p.1 p.2) mmap).getD j 0 =
        (getByte j ⟨l, mmap⟩) := by
    intro l
    induction l with
    | nil => rfl
    | cons p l ih =>
      rw [List.foldr_cons, getD_writeByte, ih]
      exact (getByte_modify (f := ⟨l, mmap⟩) p.1 p.2 j).symm
  exact hfold modifiedBytes

/-- **A commit** changes nothing for the reader, and brings the set to the disk. -/
theorem contents_commit : f.commit.contents = f.contents := by
  funext i
  rw [contents_eq, contents_eq, getByte_commit]

theorem committed_commit : f.commit.committed = f.contents :=
  contents_commit

/-- **A rollback** brings back the set on the disk. -/
theorem contents_rollback : f.rollback.contents = f.committed := rfl

theorem committed_rollback : f.rollback.committed = f.committed := rfl

end BitmapFile

end GrinPlusPlus
