import GrinPlusPlus.Lib.Exec
import GrinPlusPlus.Pmmr.SegmentRoot

/-!
# The output bitmap

`BitmapAccumulator`, a range over chunks of 1024 bits, and `BitmapSegment`, the form in which
segments of it are sent: the chunks are packed in blocks, and the positions are not sent at all
but follow from the identifier and the number of chunks.

The accumulator keeps its own file of hashes. It is a range in the sense of
`GrinPlusPlus.Pmmr.HashUtil`, and its root is the root there
(`GrinPlusPlus.BitmapAccumulator.Holds.root_eq`).
-/

namespace GrinPlusPlus

open PostOrder Mountain MMRHashUtil MMRUtil

/-! ### The accumulator -/

namespace BitmapAccumulator

/-- An accumulator without chunks. -/
def empty : BitmapAccumulator := ⟨[], []⟩

variable (G : Global)

/-- The loop of `BitmapAccumulator::AppendHashChunk` over the parents that the last leaf closed.
The positions behind a leaf have heights `1, 2, …` up to the next leaf, so the number of passes
is bounded by the position. -/
def appendParents : ℕ → List Hash → ℕ → List Hash
  | 0, nodes, _ => nodes
  | fuel + 1, nodes, position =>
    let height := Index.calculateHeight position
    if height = 0 then nodes
    else
      let leftHash := nodes.getD (Index.getLeftChild position height) Hash.zero
      let rightHash := nodes.getD (Index.getRightChild position) Hash.zero
      appendParents fuel (nodes ++ [hashParentWithIndex G leftHash rightHash position])
        (position + 1)

/-- `BitmapAccumulator::AppendHashChunk`. -/
def appendHashChunk (nodes : List Hash) (chunk : BitmapChunk) : List Hash :=
  let leafPos := nodes.length
  appendParents G (leafPos + 2) (nodes ++ [hashLeafWithIndex G chunk.bytes leafPos]) (leafPos + 1)

/-- `BitmapAccumulator::AppendChunk`. -/
def appendChunk (b : BitmapAccumulator) (chunk : BitmapChunk) : BitmapAccumulator :=
  ⟨b.chunks ++ [chunk], appendHashChunk G b.nodes chunk⟩

/-- `BitmapAccumulator::GetMMRSize`. -/
def getMMRSize (b : BitmapAccumulator) : ℕ :=
  b.nodes.length

/-- `BitmapAccumulator::Root`: an empty hash at a peak is not skipped. -/
def root (b : BitmapAccumulator) : Hash :=
  if b.nodes.isEmpty then Hash.zero
  else
    bagAll (nodeHash G) Hash.zero b.nodes.length
      ((getPeakIndices b.nodes.length).map fun peak => b.nodes.getD peak Hash.zero)

/-- **The invariant**: the hashes are the range of the chunks. -/
def Holds (b : BitmapAccumulator) : Prop :=
  IsRangeOf G b.nodes (b.chunks.map CBigInteger.bytes)

variable {G}

theorem holds_empty : Holds G empty :=
  isRange_nil

theorem Holds.getMMRSize_eq {b : BitmapAccumulator} (h : Holds G b) :
    b.getMMRSize = leafPos b.chunks.length := by
  rw [getMMRSize, h.length_eq, List.length_map]

/-- What the loop does is what `MMRHashUtil::AddHashes` does, where that finds its hashes. -/
theorem appendParents_eq {fuel : ℕ} {nodes nodes' : List Hash} {position : ℕ}
    (h : addParents G none fuel nodes position = .ok nodes') :
    appendParents G fuel nodes position = nodes' := by
  induction fuel generalizing nodes position with
  | zero =>
    cases h
    rfl
  | succ fuel ih =>
    rw [addParents] at h
    rw [appendParents]
    dsimp only at h ⊢
    split at h
    · next hleaf =>
      cases h
      rw [if_pos hleaf]
    · next hparent =>
      obtain ⟨leftHash, hleft, h⟩ := Exec.of_bind_eq_ok h
      obtain ⟨rightHash, hright, h⟩ := Exec.of_bind_eq_ok h
      have hread : ∀ {p : ℕ} {hash : Hash}, getHashAt nodes p none = .ok hash →
          nodes.getD p Hash.zero = hash := by
        intro p hash hp
        rw [getHashAt, getDataAt] at hp
        rw [List.getD_eq_getElem?_getD]
        rcases hentry : nodes[p]? with _ | entry
        · rw [hentry] at hp
          cases hp
        · rw [hentry] at hp
          cases hp
          rfl
      rw [if_neg hparent, hread hleft, hread hright]
      exact ih h

/-- **A chunk more.** -/
theorem Holds.appendChunk {b : BitmapAccumulator} (h : Holds G b) (chunk : BitmapChunk) :
    Holds G (b.appendChunk G chunk) := by
  obtain ⟨file, hfile, hrange, -⟩ := addHashes_ok h chunk.bytes
  have hnodes : (b.appendChunk G chunk).nodes = file := by
    rw [addHashes] at hfile
    simp only [Option.map_none, Option.getD_none, Nat.add_zero] at hfile
    exact appendParents_eq hfile
  rw [Holds, hnodes, BitmapAccumulator.appendChunk, List.map_append, List.map_singleton]
  exact hrange

/-- Some chunks more. -/
theorem Holds.foldl {b : BitmapAccumulator} (h : Holds G b) (chunks : List BitmapChunk) :
    Holds G (chunks.foldl (BitmapAccumulator.appendChunk G) b) ∧
      (chunks.foldl (BitmapAccumulator.appendChunk G) b).chunks = b.chunks ++ chunks := by
  induction chunks generalizing b with
  | nil => exact ⟨h, (List.append_nil _).symm⟩
  | cons chunk chunks ih =>
    obtain ⟨hholds, hchunks⟩ := ih (h.appendChunk chunk)
    refine ⟨hholds, ?_⟩
    rw [List.foldl_cons, hchunks, BitmapAccumulator.appendChunk, List.append_assoc,
      List.singleton_append]

theorem nodeHash_ne_zero (hz : G.NonzeroWithIndex) (p : ℕ) (x : Payload (List UInt8) Hash) :
    nodeHash G p x ≠ Hash.zero := by
  rcases x with leaf | ⟨left, right⟩
  · exact hz.leaf _ _
  · exact hz.parent _ _ _

/-- **The root of the accumulator** is the root of its range. -/
theorem Holds.root_eq (hz : G.NonzeroWithIndex) {b : BitmapAccumulator} (h : Holds G b) {r : Hash}
    (hr : MMRHashUtil.root G b.nodes (leafPos b.chunks.length) none = .ok r) : b.root G = r := by
  have hlength := h.length_eq
  rw [List.length_map] at hlength
  rw [MMRHashUtil.root] at hr
  rw [root, hlength]
  split at hr
  · next hzero =>
    cases hr
    rw [if_pos (by rw [List.isEmpty_iff_length_eq_zero, hlength, hzero])]
  · next hne =>
    obtain ⟨hashes, hhashes, hr⟩ := Exec.of_bind_eq_ok hr
    cases hr
    have hread : ∀ {peaks : List ℕ} {hashes : List Hash},
        List.Forall₂ (fun p a => b.nodes[p]? = some a) peaks hashes →
          hashes = (peaks.map fun peak => b.nodes.getD peak Hash.zero) ∧
            ∀ a ∈ hashes, a ≠ Hash.zero := by
      intro peaks hashes hall
      induction hall with
      | nil => exact ⟨rfl, List.forall_mem_nil _⟩
      | @cons peak hash peaks hashes hpeak _ ih =>
        obtain ⟨x, hx⟩ := h.tagged hpeak
        refine ⟨?_, List.forall_mem_cons.mpr ⟨hx ▸ nodeHash_ne_zero hz peak x, ih.2⟩⟩
        rw [List.map_cons, ← ih.1, List.getD_eq_getElem?_getD, hpeak, Option.getD_some]
    obtain ⟨heq, hne0⟩ := hread (peakHashes_eq_ok.mp hhashes)
    rw [if_neg (by rw [List.isEmpty_iff_length_eq_zero, hlength]; exact hne), ← heq,
      bagAll_eq_bag hne0]

end BitmapAccumulator

/-! ### Blocks of chunks -/

/-- `BitToByte`. -/
def BitmapChunk.bitToByte (bitOffset : ℕ) : UInt8 :=
  1 <<< UInt8.ofNat (7 - bitOffset)

/-- `BitmapChunk::Set`. -/
def BitmapChunk.set (c : BitmapChunk) (bitIndex : ℕ) (value : Bool) : BitmapChunk where
  bytes :=
    let byte := c.bytes.getD (bitIndex / 8) 0
    let bit := bitToByte (bitIndex % 8)
    c.bytes.set (bitIndex / 8) (if value then byte ||| bit else byte &&& ~~~bit)
  length_eq := by
    dsimp only
    rw [List.length_set, c.length_eq]

/-- A chunk with all bytes equal. -/
def BitmapChunk.filled (byte : UInt8) : BitmapChunk :=
  ⟨List.replicate 128 byte, List.length_replicate⟩

/-- `BitmapSegmentBlock::ESerializationMode`. -/
inductive ESerializationMode
  | raw
  | setPositions
  | unsetPositions
deriving DecidableEq

/-- `BitmapSegmentBlock`. -/
structure BitmapSegmentBlock where
  /-- `m_chunkCount`. -/
  chunkCount : UInt8
  /-- `m_mode`. -/
  mode : ESerializationMode
  /-- `m_positions`. -/
  positions : List UInt16
  /-- `m_bitmapBytes`. -/
  bitmapBytes : List UInt8
deriving DecidableEq

namespace BitmapSegmentBlock

/-- The loop of `BitmapSegmentBlock::ToChunks` over the positions. -/
def setBits (b : BitmapSegmentBlock) (value : Bool) (chunks : List BitmapChunk) :
    List UInt16 → Except Exc (List BitmapChunk)
  | [] => .ok chunks
  | position :: positions =>
    if b.chunkCount.toNat * 1024 ≤ position.toNat then
      .error (.deserialization
        ("Bitmap position " ++ toString position.toNat ++ " exceeds block size."))
    else
      setBits b value
        (chunks.modify (position.toNat / 1024) fun chunk =>
          chunk.set (position.toNat % 1024) value) positions

/-- `BitmapSegmentBlock::ToChunks`. -/
def toChunks (b : BitmapSegmentBlock) : Except Exc (List BitmapChunk) :=
  match b.mode with
  | .raw =>
    let expectedSize := b.chunkCount.toNat * 128
    if b.bitmapBytes.length ≠ expectedSize then
      .error (.deserialization ("Invalid raw bitmap block size. Expected " ++
        toString expectedSize ++ ", got " ++ toString b.bitmapBytes.length ++ "."))
    else
      .ok ((List.range b.chunkCount.toNat).map fun chunkIdx =>
        ⟨List.ofFn fun i : Fin 128 => b.bitmapBytes.getD (chunkIdx * 128 + i) 0,
          List.length_ofFn⟩)
  | .setPositions =>
    b.setBits true (List.replicate b.chunkCount.toNat (BitmapChunk.filled 0)) b.positions
  | .unsetPositions =>
    b.setBits false (List.replicate b.chunkCount.toNat (BitmapChunk.filled 0xff)) b.positions

end BitmapSegmentBlock

/-- `BitmapSegment`. -/
structure BitmapSegment where
  /-- `m_identifier`. -/
  identifier : SegmentIdentifier
  /-- `m_blocks`. -/
  blocks : List BitmapSegmentBlock
  /-- `m_proof`. -/
  proof : SegmentProof
deriving DecidableEq

namespace BitmapSegment

/-- The chunks of all blocks. -/
def chunks : List BitmapSegmentBlock → Except Exc (List BitmapChunk)
  | [] => .ok []
  | block :: blocks => do
    let blockChunks ← block.toChunks
    let rest ← chunks blocks
    .ok (blockChunks ++ rest)

/-- The position of the leaf `i` of a segment, in 64 bits. -/
def leafPositionAt (identifier : SegmentIdentifier) (i : ℕ) : ℕ :=
  leafPosition ((identifier.getLeafOffset + i) % 2 ^ 64) % 2 ^ 64

/-- `BitmapSegment::ToSegment`: a position for each chunk, from the offset of the segment on. -/
def toSegment (b : BitmapSegment) : Except Exc (Segment BitmapChunk) := do
  let chunks ← chunks b.blocks
  .ok
    { id := b.identifier
      hashPos := []
      hashes := []
      leafPos := (List.range chunks.length).map (leafPositionAt b.identifier)
      leaves := chunks
      proof := b.proof }

end BitmapSegment

end GrinPlusPlus
