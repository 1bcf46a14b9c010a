import GrinPlusPlus.Core.WireCodec
import GrinPlusPlus.Pmmr.BitmapFile

/-!
# The codec of bitmap segments

`BitmapSegment`, between a segment of chunks and its bytes. The chunks are packed in blocks of
64, and a block is sent in one of three forms: the positions of its set bits, those of its unset
bits, or its bytes.

The encoder counts while it collects, and stops collecting at `2 ^ 16 / 16` positions
(`GrinPlusPlus.BitmapSegmentBlock.fromChunks_eq`): a form is chosen when its list is *shorter* than
that, and then the list is complete. A position fits 16 bits because a block has at most `2 ^ 16`
bits, and the number of positions does because it is below the threshold; the two full lists,
of `2 ^ 16 / 16` positions each, are never sent.

* `GrinPlusPlus.BitmapSegmentBlock.toChunks_fromChunks` – a block stands for its chunks;
* `GrinPlusPlus.BitmapSegmentBlock.run_deserialize` – and is read back;
* `GrinPlusPlus.BitmapSegment.codec_roundTrip` – hence so is the segment, whose positions follow
  from the identifier.
-/

namespace GrinPlusPlus

open Exec ByteBuffer

/-! ### Blocks -/

namespace BitmapSegmentBlock

/-- `threshold` in `BitmapSegmentBlock::FromChunks`. -/
def threshold : ℕ :=
  2 ^ 16 / 16

/-- `IsSet` of a bit in a row of chunks. -/
def isSetAt (chunks : List BitmapChunk) (bitIdx : ℕ) : Bool :=
  match chunks[bitIdx / 1024]? with
  | some chunk => chunk.isSet (bitIdx % 1024)
  | none => false

/-- One pass of the loop of `BitmapSegmentBlock::FromChunks` over the bits: `setPositions` and
`unsetPositions`. -/
def collect (chunks : List BitmapChunk) (positions : List UInt16 × List UInt16) (bitIdx : ℕ) :
    List UInt16 × List UInt16 :=
  if isSetAt chunks bitIdx = true ∧ positions.1.length < threshold then
    (positions.1 ++ [UInt16.ofNat bitIdx], positions.2)
  else if isSetAt chunks bitIdx = false ∧ positions.2.length < threshold then
    (positions.1, positions.2 ++ [UInt16.ofNat bitIdx])
  else positions

/-- `BitmapSegmentBlock::FromChunks`. -/
def fromChunks (chunks : List BitmapChunk) : BitmapSegmentBlock :=
  let positions := (List.range (chunks.length * 1024)).foldl (collect chunks) ([], [])
  if positions.1.length < threshold then
    ⟨UInt8.ofNat chunks.length, .setPositions, positions.1, []⟩
  else if positions.2.length < threshold then
    ⟨UInt8.ofNat chunks.length, .unsetPositions, positions.2, []⟩
  else ⟨UInt8.ofNat chunks.length, .raw, [], chunks.flatMap CBigInteger.bytes⟩

variable {chunks : List BitmapChunk}

/-- **What is collected**: the first positions of each kind, as many as the threshold. -/
theorem foldl_collect (bits : List ℕ) {s u : List UInt16} (hs : s.length ≤ threshold)
    (hu : u.length ≤ threshold) :
    bits.foldl (collect chunks) (s, u) =
      (s ++ ((bits.filter fun b => isSetAt chunks b).map UInt16.ofNat).take
        (threshold - s.length),
       u ++ ((bits.filter fun b => !isSetAt chunks b).map UInt16.ofNat).take
        (threshold - u.length)) := by
  induction bits generalizing s u with
  | nil => simp
  | cons b bits ih =>
    rw [List.foldl_cons]
    cases hb : isSetAt chunks b with
    | true =>
      rw [List.filter_cons_of_pos hb, List.filter_cons_of_neg (by simp [hb]), List.map_cons]
      by_cases hroom : s.length < threshold
      · have hcollect : collect chunks (s, u) b = (s ++ [UInt16.ofNat b], u) := by
          rw [collect, if_pos ⟨hb, hroom⟩]
        have hsucc : threshold - s.length = threshold - (s.length + 1) + 1 := by omega
        have hlength : (s ++ [UInt16.ofNat b]).length = s.length + 1 := List.length_append
        rw [hcollect, ih (by omega) hu, hlength, hsucc, List.take_succ_cons, List.append_assoc,
          List.singleton_append]
      · have hcollect : collect chunks (s, u) b = (s, u) := by
          rw [collect, if_neg fun h => hroom h.2, if_neg (by simp [hb])]
        have hfull : threshold - s.length = 0 := by omega
        rw [hcollect, ih hs hu, hfull, List.take_zero, List.take_zero]
    | false =>
      rw [List.filter_cons_of_neg (by simp [hb]), List.filter_cons_of_pos (by simp [hb]),
        List.map_cons]
      by_cases hroom : u.length < threshold
      · have hcollect : collect chunks (s, u) b = (s, u ++ [UInt16.ofNat b]) := by
          rw [collect, if_neg (by simp [hb]), if_pos ⟨hb, hroom⟩]
        have hsucc : threshold - u.length = threshold - (u.length + 1) + 1 := by omega
        have hlength : (u ++ [UInt16.ofNat b]).length = u.length + 1 := List.length_append
        rw [hcollect, ih hs (by omega), hlength, hsucc, List.take_succ_cons, List.append_assoc,
          List.singleton_append]
      · have hcollect : collect chunks (s, u) b = (s, u) := by
          rw [collect, if_neg (by simp [hb]), if_neg fun h => hroom h.2]
        have hfull : threshold - u.length = 0 := by omega
        rw [hcollect, ih hs hu, hfull, List.take_zero, List.take_zero]

/-- The positions of the bits of one kind. -/
def positionsOf (chunks : List BitmapChunk) (value : Bool) : List UInt16 :=
  ((List.range (chunks.length * 1024)).filter fun b => isSetAt chunks b == value).map UInt16.ofNat

theorem collected_eq (chunks : List BitmapChunk) :
    (List.range (chunks.length * 1024)).foldl (collect chunks) ([], []) =
      ((positionsOf chunks true).take threshold, (positionsOf chunks false).take threshold) := by
  rw [foldl_collect _ (Nat.zero_le _) (Nat.zero_le _)]
  simp [positionsOf]

/-- **The three forms of a block**: a list that is sent is complete. -/
theorem fromChunks_eq (chunks : List BitmapChunk) : fromChunks chunks =
    if (positionsOf chunks true).length < threshold then
      ⟨UInt8.ofNat chunks.length, .setPositions, positionsOf chunks true, []⟩
    else if (positionsOf chunks false).length < threshold then
      ⟨UInt8.ofNat chunks.length, .unsetPositions, positionsOf chunks false, []⟩
    else ⟨UInt8.ofNat chunks.length, .raw, [], chunks.flatMap CBigInteger.bytes⟩ := by
  have hshort : ∀ l : List UInt16, (l.take threshold).length < threshold ↔
      l.length < threshold := by
    intro l
    rw [List.length_take]
    omega
  rw [fromChunks, collected_eq]
  simp only [hshort]
  split
  · next hlt => rw [List.take_of_length_le hlt.le]
  · split
    · next hlt => rw [List.take_of_length_le hlt.le]
    · rfl

/-- Chunks are their bits. -/
theorem ext_isSetAt {chunks chunks' : List BitmapChunk} (hlength : chunks.length = chunks'.length)
    (h : ∀ b < chunks.length * 1024, isSetAt chunks b = isSetAt chunks' b) :
    chunks = chunks' := by
  refine List.ext_getElem hlength fun k hk hk' => BitmapChunk.ext_isSet fun b hb => ?_
  have hbit := h (k * 1024 + b) (by omega)
  have hdiv : (k * 1024 + b) / 1024 = k := by omega
  have hmod : (k * 1024 + b) % 1024 = b := by omega
  rwa [isSetAt, isSetAt, hdiv, hmod, List.getElem?_eq_getElem hk,
    List.getElem?_eq_getElem hk'] at hbit

/-- Setting a bit of a row of chunks. -/
theorem isSetAt_modify {b : ℕ} (hb : b < chunks.length * 1024) (value : Bool) (i : ℕ) :
    isSetAt (chunks.modify (b / 1024) fun chunk => chunk.set (b % 1024) value) i =
      if i = b then value else isSetAt chunks i := by
  have hbit : b % 1024 < 1024 := Nat.mod_lt b (by decide)
  have hchunk : b / 1024 < chunks.length := by omega
  by_cases hsame : b / 1024 = i / 1024
  · rw [isSetAt, isSetAt, ← hsame, List.getElem?_modify_eq, List.getElem?_eq_getElem hchunk]
    simp only [Option.map_eq_map, Option.map_some]
    rw [BitmapChunk.isSet_set _ hbit]
    by_cases hi : i = b
    · rw [if_pos hi, if_pos (by rw [hi])]
    · rw [if_neg hi, if_neg (by omega)]
  · rw [isSetAt, isSetAt, List.getElem?_modify_ne _ _ hsame,
      if_neg (fun hi => hsame (by rw [hi]))]

/-- **Setting the positions of a list**, all of them within the block. -/
theorem setBits_eq {b : BitmapSegmentBlock} (value : Bool) {positions : List UInt16}
    (hlength : chunks.length = b.chunkCount.toNat)
    (h : ∀ p ∈ positions, p.toNat < chunks.length * 1024) :
    ∃ chunks', setBits b value chunks positions = .ok chunks' ∧
      chunks'.length = chunks.length ∧
      ∀ i, isSetAt chunks' i =
        if i ∈ positions.map UInt16.toNat then value else isSetAt chunks i := by
  induction positions generalizing chunks with
  | nil => exact ⟨chunks, rfl, rfl, by simp⟩
  | cons p positions ih =>
    obtain ⟨hp, hrest⟩ := List.forall_mem_cons.1 h
    have hmodify : (chunks.modify (p.toNat / 1024) fun chunk =>
        chunk.set (p.toNat % 1024) value).length = chunks.length := List.length_modify ..
    obtain ⟨chunks', hset, hlength', hbits⟩ :=
      ih (hmodify.trans hlength) (by rwa [hmodify])
    refine ⟨chunks', ?_, hlength'.trans hmodify, fun i => ?_⟩
    · rw [setBits, if_neg (by omega), hset]
    · rw [hbits, isSetAt_modify hp, List.map_cons]
      by_cases hmem : i ∈ positions.map UInt16.toNat
      · rw [if_pos hmem, if_pos (List.mem_cons_of_mem _ hmem)]
      · by_cases hi : i = p.toNat
        · rw [if_neg hmem, if_pos hi, if_pos (by rw [hi]; exact List.mem_cons_self)]
        · rw [if_neg hmem, if_neg hi, if_neg (by simp [hi] at hmem ⊢; exact hmem)]

theorem mem_positionsOf (hcount : chunks.length ≤ 64) (value : Bool) {i : ℕ} :
    i ∈ (positionsOf chunks value).map UInt16.toNat ↔
      i < chunks.length * 1024 ∧ isSetAt chunks i = value := by
  rw [positionsOf, List.map_map, List.mem_map]
  have hword : ∀ b < chunks.length * 1024, (UInt16.toNat ∘ UInt16.ofNat) b = b := fun b hb =>
    UInt16.toNat_ofNat_of_lt' (Nat.lt_of_lt_of_le hb (Nat.mul_le_mul_right 1024 hcount))
  simp only [List.mem_filter, List.mem_range, beq_iff_eq]
  constructor
  · rintro ⟨b, ⟨hb, hvalue⟩, heq⟩
    rw [hword b hb] at heq
    exact heq ▸ ⟨hb, hvalue⟩
  · rintro ⟨hi, hvalue⟩
    exact ⟨i, ⟨hi, hvalue⟩, hword i hi⟩

theorem isSet_filled_ones {b : ℕ} (hb : b < 1024) : (BitmapChunk.filled 0xff).isSet b = true := by
  have hones : (List.replicate 128 (0xff : UInt8)).getD (b / 8) 0 = 0xff :=
    List.getD_replicate _ (by omega)
  have hall : ∀ k < 8, (0xff : UInt8).toNat.testBit (7 - k) = true := by decide
  rw [BitmapChunk.isSet, BitmapChunk.filled, hones]
  exact hall _ (Nat.mod_lt b (by decide))

theorem isSetAt_replicate {n b : ℕ} (hb : b < n * 1024) (chunk : BitmapChunk) :
    isSetAt (List.replicate n chunk) b = chunk.isSet (b % 1024) := by
  rw [isSetAt, List.getElem?_replicate, if_pos (by omega)]

/-- The bytes of a row of chunks. -/
theorem getD_flatMap_bytes (chunks : List BitmapChunk) {k i : ℕ} (hk : k < chunks.length)
    (hi : i < 128) :
    (chunks.flatMap CBigInteger.bytes).getD (k * 128 + i) 0 = (chunks[k]).bytes.getD i 0 := by
  induction chunks generalizing k with
  | nil => cases hk
  | cons chunk chunks ih =>
    have hlength := chunk.length_eq
    rw [List.flatMap_cons]
    cases k with
    | zero =>
      rw [Nat.zero_mul, Nat.zero_add, List.getD_append _ _ _ _ (by omega)]
      rfl
    | succ k =>
      rw [List.getD_append_right _ _ _ _ (by omega), hlength,
        show (k + 1) * 128 + i - 128 = k * 128 + i by omega]
      exact ih (Nat.lt_of_succ_lt_succ hk)

/-- **A block stands for its chunks**, whatever its form. -/
theorem toChunks_fromChunks (hcount : chunks.length ≤ 64) :
    (fromChunks chunks).toChunks = .ok chunks := by
  have hword : (UInt8.ofNat chunks.length).toNat = chunks.length :=
    UInt8.toNat_ofNat_of_lt' (by rw [UInt8.size]; omega)
  have hbelow : ∀ value, ∀ p ∈ positionsOf chunks value, p.toNat < chunks.length * 1024 :=
    fun value p hp => ((mem_positionsOf hcount value).1 (List.mem_map_of_mem hp)).1
  -- the two lists of positions, on a row of equal chunks
  have hpositions : ∀ (b : BitmapSegmentBlock) (chunk : BitmapChunk) (value : Bool),
      b.chunkCount = UInt8.ofNat chunks.length → (∀ i < 1024, chunk.isSet i = !value) →
      b.setBits value (List.replicate b.chunkCount.toNat chunk) (positionsOf chunks value) =
        .ok chunks := by
    intro b chunk value hb hchunk
    have hrow : (List.replicate b.chunkCount.toNat chunk).length = chunks.length := by
      rw [List.length_replicate, hb, hword]
    obtain ⟨chunks', hset, hlength, hbits⟩ :=
      setBits_eq (b := b) value List.length_replicate (hrow.symm ▸ hbelow value)
    rw [hset, ext_isSetAt (hlength.trans hrow) fun i hi => ?_]
    rw [hlength, hrow] at hi
    rw [hbits, isSetAt_replicate (by rwa [hb, hword])]
    by_cases hi' : isSetAt chunks i = value
    · rw [if_pos ((mem_positionsOf hcount value).2 ⟨hi, hi'⟩), hi']
    · rw [if_neg fun h => hi' ((mem_positionsOf hcount value).1 h).2,
        hchunk _ (Nat.mod_lt i (by decide))]
      exact (Bool.eq_not_of_ne hi').symm
  rw [fromChunks_eq]
  split
  · exact hpositions _ _ true rfl fun i _ => BitmapChunk.isSet_filled_zero i
  · split
    · exact hpositions _ _ false rfl fun i hi => isSet_filled_ones hi
    · have hbytes : (chunks.flatMap CBigInteger.bytes).length = chunks.length * 128 := by
        rw [List.length_flatMap, List.map_congr_left fun chunk _ => chunk.length_eq]
        simp
      simp only [toChunks, hword, hbytes, ne_eq, not_true_eq_false, if_false]
      congr 1
      refine List.ext_getElem (by rw [List.length_map, List.length_range]) fun k hk hk' =>
        CBigInteger.ext_bytes ?_
      rw [List.getElem_map, List.getElem_range]
      refine List.ext_getElem (List.length_ofFn.trans chunks[k].length_eq.symm) fun i hi hi' => ?_
      rw [chunks[k].length_eq] at hi'
      simp only [List.getElem_ofFn]
      rw [getD_flatMap_bytes chunks hk' hi', List.getD_eq_getElem]

end BitmapSegmentBlock

/-! ### Bytes -/

/-- The value of an `ESerializationMode`. -/
def ESerializationMode.value : ESerializationMode → UInt8
  | raw => 0
  | setPositions => 1
  | unsetPositions => 2

/-- The mode of a value, if it has one. -/
def ESerializationMode.ofValue (modeValue : UInt8) : Option ESerializationMode :=
  if modeValue = 0 then some raw
  else if modeValue = 1 then some setPositions
  else if modeValue = 2 then some unsetPositions
  else none

namespace BitmapSegmentBlock

/-- `BitmapSegmentBlock::Serialize`: the number of positions is cast to 16 bits. -/
def serialize (b : BitmapSegmentBlock) : List UInt8 :=
  b.chunkCount :: b.mode.value ::
    if b.mode = .raw then b.bitmapBytes
    else beBytes 2 b.positions.length ++ b.positions.flatMap fun p => beBytes 2 p.toNat

/-- `BitmapSegmentBlock::Deserialize`. -/
def deserialize : ByteBuffer BitmapSegmentBlock := do
  let chunkCount ← readU8
  let modeValue ← readU8
  match ESerializationMode.ofValue modeValue with
  | none =>
    throw (.deserialization
      ("Invalid bitmap serialization mode: " ++ toString modeValue.toNat))
  | some .raw =>
    let bitmapBytes ← readMany readU8 (chunkCount.toNat * 128)
    pure ⟨chunkCount, .raw, [], bitmapBytes⟩
  | some mode =>
    let count ← readU16
    let positions ← readMany readU16 count.toNat
    pure ⟨chunkCount, mode, positions, []⟩

end BitmapSegmentBlock

/-- `SegmentIdentifier::Serialize`. -/
def SegmentIdentifier.serialize (id : SegmentIdentifier) : List UInt8 :=
  id.height :: beBytes 8 id.index.toNat

/-- `SegmentIdentifier::Deserialize`. -/
def SegmentIdentifier.deserialize : ByteBuffer SegmentIdentifier := do
  let height ← readU8
  let index ← readU64
  pure ⟨height, index⟩

/-- `SegmentProof::Serialize`. -/
def SegmentProof.serialize (proof : SegmentProof) : List UInt8 :=
  beBytes 8 proof.hashes.length ++ proof.hashes.flatMap Hash.getData

/-- `SegmentProof::Deserialize`. -/
def SegmentProof.deserialize : ByteBuffer SegmentProof := do
  let size ← readU64
  let hashes ← readMany readHash size.toNat
  pure ⟨hashes⟩

namespace BitmapSegment

/-- `BitmapSegment::FromSegment`: blocks of 64 chunks, the last one with what is left. -/
def fromSegment (segment : Segment BitmapChunk) : BitmapSegment where
  identifier := segment.id
  blocks := (List.range ((segment.leaves.length + 63) / 64)).map fun k =>
    BitmapSegmentBlock.fromChunks ((segment.leaves.drop (64 * k)).take 64)
  proof := segment.proof

/-- `BitmapSegment::Serialize`: the number of blocks is cast to 16 bits. -/
def serialize (b : BitmapSegment) : List UInt8 :=
  b.identifier.serialize ++ (beBytes 2 b.blocks.length ++
    (b.blocks.flatMap BitmapSegmentBlock.serialize ++ b.proof.serialize))

/-- `BitmapSegment::Deserialize`. -/
def deserialize : ByteBuffer BitmapSegment := do
  let identifier ← SegmentIdentifier.deserialize
  let numBlocks ← readU16
  let blocks ← readMany BitmapSegmentBlock.deserialize numBlocks.toNat
  let proof ← SegmentProof.deserialize
  pure ⟨identifier, blocks, proof⟩

end BitmapSegment

/-! ### What was written is read back -/

theorem SegmentIdentifier.run_deserialize (id : SegmentIdentifier) (rest : List UInt8) :
    run SegmentIdentifier.deserialize (id.serialize ++ rest) = (.ok id, rest) := by
  rw [SegmentIdentifier.deserialize, SegmentIdentifier.serialize, List.cons_append,
    run_bind_ok (run_readU8 _ _), run_bind_ok (run_readU64 _ rest), run_pure]

/-- A proof is read back when its hashes have 32 bytes and a size counts them. -/
theorem SegmentProof.run_deserialize {proof : SegmentProof}
    (hhashes : ∀ h ∈ proof.hashes, h.value < 256 ^ 32) (hlength : proof.hashes.length < 2 ^ 64)
    (rest : List UInt8) :
    run SegmentProof.deserialize (proof.serialize ++ rest) = (.ok proof, rest) := by
  have hread := run_readMany (fun h hh rest => run_readHash (hhashes h hh) rest) rest
  rw [SegmentProof.deserialize, SegmentProof.serialize, List.append_assoc,
    run_bind_ok (run_readU64_of_lt hlength _), UInt64.toNat_ofNat_of_lt' hlength,
    run_bind_ok hread, run_pure]

theorem run_readU16_toNat (x : UInt16) (rest : List UInt8) :
    run readU16 (beBytes 2 x.toNat ++ rest) = (.ok x, rest) := by
  have hread := run_readU16 x.toNat rest
  rwa [Nat.mod_eq_of_lt x.toNat_lt, UInt16.ofNat_toNat] at hread

/-- A count of 16 bits. -/
theorem run_readU16_of_lt {n : ℕ} (h : n < 2 ^ 16) (rest : List UInt8) :
    run readU16 (beBytes 2 n ++ rest) = (.ok (UInt16.ofNat n), rest) := by
  have hread := run_readU16 n rest
  rwa [Nat.mod_eq_of_lt h] at hread

theorem ESerializationMode.ofValue_value (mode : ESerializationMode) :
    ofValue mode.value = some mode := by
  cases mode <;> rfl

namespace BitmapSegmentBlock

/-- **A block of chunks is read back**, in each of the three forms. -/
theorem run_deserialize {chunks : List BitmapChunk} (hcount : chunks.length ≤ 64)
    (rest : List UInt8) :
    run deserialize ((fromChunks chunks).serialize ++ rest) = (.ok (fromChunks chunks), rest) := by
  have hpositions : ∀ (mode : ESerializationMode) (positions : List UInt16), mode ≠ .raw →
      positions.length < threshold →
      run deserialize ((⟨UInt8.ofNat chunks.length, mode, positions, []⟩ :
        BitmapSegmentBlock).serialize ++ rest) =
        (.ok ⟨UInt8.ofNat chunks.length, mode, positions, []⟩, rest) := by
    intro mode positions hmode hshort
    have hlength : positions.length < 2 ^ 16 := hshort.trans (by decide)
    have hcount' : (UInt16.ofNat positions.length).toNat = positions.length :=
      UInt16.toNat_ofNat_of_lt' hlength
    have hread := run_readMany (fun p (_ : p ∈ positions) rest => run_readU16_toNat p rest) rest
    rw [deserialize, serialize, if_neg hmode, List.cons_append, List.cons_append,
      List.append_assoc, run_bind_ok (run_readU8 _ _), run_bind_ok (run_readU8 _ _),
      ESerializationMode.ofValue_value]
    cases mode with
    | raw => exact absurd rfl hmode
    | setPositions =>
      dsimp only
      rw [run_bind_ok (run_readU16_of_lt hlength _), hcount', run_bind_ok hread, run_pure]
    | unsetPositions =>
      dsimp only
      rw [run_bind_ok (run_readU16_of_lt hlength _), hcount', run_bind_ok hread, run_pure]
  rw [fromChunks_eq]
  split
  · next hshort => exact hpositions _ _ (by decide) hshort
  · split
    · next hshort => exact hpositions _ _ (by decide) hshort
    · have hword : (UInt8.ofNat chunks.length).toNat = chunks.length :=
        UInt8.toNat_ofNat_of_lt' (by rw [UInt8.size]; omega)
      have hbytes : (chunks.flatMap CBigInteger.bytes).length =
          (UInt8.ofNat chunks.length).toNat * 128 := by
        rw [hword, List.length_flatMap, List.map_congr_left fun chunk _ => chunk.length_eq]
        simp
      have hread : run (readMany readU8 (chunks.flatMap CBigInteger.bytes).length)
          ((chunks.flatMap CBigInteger.bytes).flatMap (fun b => [b]) ++ rest) =
            (.ok (chunks.flatMap CBigInteger.bytes), rest) :=
        run_readMany (fun b _ rest => run_readU8 b rest) rest
      rw [List.flatMap_singleton', hbytes] at hread
      rw [deserialize, serialize, if_pos rfl, List.cons_append, List.cons_append,
        run_bind_ok (run_readU8 _ _), run_bind_ok (run_readU8 _ _),
        ESerializationMode.ofValue_value]
      dsimp only
      rw [run_bind_ok hread, run_pure]

end BitmapSegmentBlock

namespace BitmapSegment

/-- The blocks of a list stand for the list. -/
theorem chunks_blocks {n : ℕ} {chunks : List BitmapChunk} (h : chunks.length ≤ 64 * n) :
    BitmapSegment.chunks ((List.range n).map fun k =>
      BitmapSegmentBlock.fromChunks ((chunks.drop (64 * k)).take 64)) = .ok chunks := by
  induction n generalizing chunks with
  | zero =>
    obtain rfl : chunks = [] := List.eq_nil_of_length_eq_zero (by omega)
    rfl
  | succ n ih =>
    have hlength : (chunks.drop 64).length ≤ 64 * n := by
      rw [List.length_drop]
      omega
    have hrest := ih hlength
    have hblock : (chunks.take 64).length ≤ 64 := List.length_take_le ..
    have hshift : ((fun k => BitmapSegmentBlock.fromChunks ((chunks.drop (64 * k)).take 64)) ∘
        Nat.succ) = fun k =>
          BitmapSegmentBlock.fromChunks (((chunks.drop 64).drop (64 * k)).take 64) := by
      funext k
      rw [Function.comp_apply, List.drop_drop, Nat.mul_succ, Nat.add_comm]
    rw [List.range_succ_eq_map, List.map_cons, List.map_map, hshift, BitmapSegment.chunks,
      Nat.mul_zero, List.drop_zero, BitmapSegmentBlock.toChunks_fromChunks hblock, hrest,
      ok_bind, ok_bind, List.take_append_drop]

/-- **The codec of bitmap segments**: up to the number of blocks that 16 bits count, a segment of
chunks comes back with its identifier, its chunks and its proof, and the positions of its leaves
are those from the offset of the identifier on. -/
theorem codec_roundTrip {segment : Segment BitmapChunk}
    (hleaves : segment.leaves.length ≤ 64 * 65535)
    (hpos : segment.leafPos =
      (List.range segment.leaves.length).map (leafPositionAt segment.id))
    (hhashes : ∀ h ∈ segment.proof.hashes, h.value < 256 ^ 32)
    (hproof : segment.proof.hashes.length < 2 ^ 64) :
    ∃ decoded, run deserialize (fromSegment segment).serialize = (.ok decoded, []) ∧
      decoded.toSegment = .ok { segment with hashPos := [], hashes := [] } := by
  obtain ⟨n, hn⟩ : ∃ n, (segment.leaves.length + 63) / 64 = n := ⟨_, rfl⟩
  have hblocks : (fromSegment segment).blocks.length = n := by
    rw [fromSegment, List.length_map, List.length_range, hn]
  have hcount : n < 2 ^ 16 := by omega
  have hcount' : (UInt16.ofNat n).toNat = (fromSegment segment).blocks.length := by
    rw [hblocks]
    exact UInt16.toNat_ofNat_of_lt' hcount
  have hread := run_readMany (fun block (hblock : block ∈ (fromSegment segment).blocks) rest => by
    obtain ⟨k, -, rfl⟩ := List.mem_map.1 hblock
    exact BitmapSegmentBlock.run_deserialize (List.length_take_le ..) rest)
      (fromSegment segment).proof.serialize
  have hlast : run SegmentProof.deserialize (fromSegment segment).proof.serialize =
      (.ok segment.proof, []) := by
    have hend := SegmentProof.run_deserialize hhashes hproof []
    rwa [List.append_nil] at hend
  refine ⟨fromSegment segment, ?_, ?_⟩
  · rw [deserialize, serialize, run_bind_ok (SegmentIdentifier.run_deserialize _ _), hblocks,
      run_bind_ok (run_readU16_of_lt hcount _), hcount', run_bind_ok hread, run_bind_ok hlast,
      run_pure]
    rfl
  · have hchunks : BitmapSegment.chunks (fromSegment segment).blocks = .ok segment.leaves :=
      chunks_blocks (by omega)
    rw [toSegment, hchunks, ok_bind]
    congr 1
    rw [Segment.mk.injEq]
    exact ⟨rfl, rfl, rfl, hpos.symm, rfl, rfl⟩

/-- Three chunks, of which one is full, and a proof of one hash. -/
def threeChunks : Segment BitmapChunk :=
  ⟨⟨2, 0⟩, [], [], [0, 1, 3], [.filled 0, .filled 0xff, .filled 0], ⟨[⟨7⟩]⟩⟩

theorem codec_roundTrip_threeChunks : ∃ decoded,
    run deserialize (fromSegment threeChunks).serialize = (.ok decoded, []) ∧
      decoded.toSegment = .ok threeChunks := by
  have hleaves : threeChunks.leaves.length ≤ 64 * 65535 := by simp [threeChunks]
  exact codec_roundTrip hleaves (by decide) (by simp [threeChunks]) (by simp [threeChunks])

end BitmapSegment

end GrinPlusPlus
