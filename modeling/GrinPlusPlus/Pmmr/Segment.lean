import GrinPlusPlus.Lib.Merkle
import GrinPlusPlus.Lib.Nodes
import GrinPlusPlus.Pmmr.PruneableMMR

/-!
# Segments of the mountain ranges

What is exchanged when the state is downloaded in parts: `SegmentIdentifier`, `SegmentProof`
and `Segment`, with the navigation of `Index` and `MMRUtil` they use.

A segment is a block of leaves, some hashes in the place of leaves that were spent, and a
proof. `GrinPlusPlus.Segment.root` computes its root by walking over the positions of the
block with a stack and looks up what it needs at each position; what is supplied at other
positions is not looked at. `GrinPlusPlus.SegmentProof.reconstructRoot` goes on from there to
the root of the whole range.
-/

namespace GrinPlusPlus

open PostOrder MMRHashUtil

/-! ### Navigation -/

/-- `Index`: a position with its height. -/
structure Index where
  /-- `m_position`. -/
  position : ℕ
  /-- `m_height`. -/
  height : ℕ
deriving DecidableEq

namespace Index

/-- `Index::At`. -/
def ofPosition (position : ℕ) : Index :=
  ⟨position, calculateHeight position⟩

/-- `Index::GetParent`: the next node for a right sibling. -/
def getParent (i : Index) : Index :=
  if calculateHeight (i.position + 1) = i.height + 1 then ⟨i.position + 1, i.height + 1⟩
  else ⟨i.position + 2 ^ (i.height + 1), i.height + 1⟩

/-- `Index::GetSibling`. -/
def getSibling (i : Index) : Index :=
  if calculateHeight (i.position + 1) = i.height + 1 then
    ⟨i.position + 1 - 2 ^ (i.height + 1), i.height⟩
  else ⟨i.position + 2 ^ (i.height + 1) - 1, i.height⟩

end Index

namespace MMRUtil

/-- `MMRUtil::CountLeaves`, in 64 bits: for the largest size the count overflows. -/
def countLeaves (size : ℕ) : ℕ :=
  if size = 0 then 0 else Index.calculateLeafIndex size % 2 ^ 63

/-- A range of leaves has that many leaves. -/
theorem countLeaves_leafPos {n : ℕ} (h : n < 2 ^ 63) : countLeaves (PostOrder.leafPos n) = n := by
  rw [countLeaves]
  split
  · next hzero =>
    have := PostOrder.le_leafPos n
    omega
  · rw [calculateLeafIndex_leafPos, Nat.mod_eq_of_lt h]

/-- `MMRUtil::IsLeftSibling`. -/
def isLeftSibling (position : ℕ) : Bool :=
  let index := Index.ofPosition position
  let parent := index.getParent
  ⟨Index.getLeftChild parent.position parent.height, parent.height - 1⟩ == index

/-- The loop of `MMRUtil::FamilyBranch`: the parents below the size, with the siblings. Every
pass moves to a larger position, so the size bounds the number of passes. -/
def familyBranchFrom (size : ℕ) : ℕ → Index → List (ℕ × ℕ)
  | 0, _ => []
  | fuel + 1, current =>
    if current.getParent.position < size then
      (current.getParent.position, current.getSibling.position) ::
        familyBranchFrom size fuel current.getParent
    else []

/-- `MMRUtil::FamilyBranch`. -/
def familyBranch (position size : ℕ) : List (ℕ × ℕ) :=
  if size = 0 ∨ size ≤ position then []
  else familyBranchFrom size size (Index.ofPosition position)

end MMRUtil

open MMRUtil

/-! ### Bitmaps -/

/-- `BitmapChunk`: 1024 bits. -/
abbrev BitmapChunk := CBigInteger 128

/-- `BitmapChunk::IsSet`: the first bit of a byte is the highest one. -/
def BitmapChunk.isSet (c : BitmapChunk) (bitIndex : ℕ) : Bool :=
  (c.bytes.getD (bitIndex / 8) 0).toNat.testBit (7 - bitIndex % 8)

/-- `BitmapAccumulator`: chunks, and the range of their hashes. -/
structure BitmapAccumulator where
  /-- `m_chunks`. -/
  chunks : List BitmapChunk
  /-- `m_nodes`. -/
  nodes : List Hash

/-- `BitmapContains`. -/
def BitmapAccumulator.contains (b : BitmapAccumulator) (bitIndex : ℕ) : Bool :=
  match b.chunks[bitIndex / 1024]? with
  | none => false
  | some chunk => chunk.isSet (bitIndex % 1024)

/-- `GetFirstLeafIndex`, of an index: the left children down to a leaf. -/
def getFirstLeafIndex (position : ℕ) : ℕ → ℕ
  | 0 => Index.calculateLeafIndex position
  | height + 1 => getFirstLeafIndex (Index.getLeftChild position (height + 1)) height

/-- `IsRequiredByBitmap`: a leaf below the index is set. -/
def isRequiredByBitmap (bitmap : BitmapAccumulator) (index : Index) (mmrSize : ℕ) : Bool :=
  let firstLeaf := getFirstLeafIndex index.position index.height
  let lastLeaf := min (countLeaves mmrSize) (firstLeaf + 2 ^ index.height)
  (List.range' firstLeaf (lastLeaf - firstLeaf)).any bitmap.contains

/-- `IsLeafRequiredByBitmap`: the leaf or its sibling is set, or it is the last node. -/
def isLeafRequiredByBitmap (bitmap : BitmapAccumulator) (position mmrSize : ℕ) : Bool :=
  let leafIndex := Index.calculateLeafIndex position
  if bitmap.contains leafIndex || position + 1 == mmrSize then true
  else
    let siblingLeafIndex :=
      if isLeftSibling position then leafIndex + 1
      else if leafIndex = 0 then leafIndex else leafIndex - 1
    decide (siblingLeafIndex < countLeaves mmrSize) && bitmap.contains siblingLeafIndex

/-! ### Identifiers -/

/-- `SegmentIdentifier`. -/
structure SegmentIdentifier where
  /-- `m_height`. -/
  height : UInt8
  /-- `m_index`. -/
  index : UInt64
deriving DecidableEq

namespace SegmentIdentifier

/-- `SegmentIdentifier::GetSegmentCapacity`. -/
def getSegmentCapacity (id : SegmentIdentifier) : ℕ :=
  2 ^ id.height.toNat

/-- `SegmentIdentifier::GetLeafOffset`, in 64 bits. -/
def getLeafOffset (id : SegmentIdentifier) : ℕ :=
  id.index.toNat * id.getSegmentCapacity % 2 ^ 64

/-- `SegmentIdentifier::GetSegmentUnprunedSize`. -/
def getSegmentUnprunedSize (id : SegmentIdentifier) (mmrSize : ℕ) : ℕ :=
  if countLeaves mmrSize ≤ id.getLeafOffset then 0
  else min id.getSegmentCapacity (countLeaves mmrSize - id.getLeafOffset)

/-- `SegmentIdentifier::GetPositionRange`. -/
def getPositionRange (id : SegmentIdentifier) (mmrSize : ℕ) : ℕ × ℕ :=
  let segmentSize := id.getSegmentUnprunedSize mmrSize
  if segmentSize = 0 then (0, 0)
  else
    let first := leafPosition id.getLeafOffset
    if segmentSize = id.getSegmentCapacity then
      (first, leafPosition (id.getLeafOffset + segmentSize - 1) + id.height.toNat)
    else (first, mmrSize - 1)

/-- `SegmentIdentifier::CountSegmentsRequired`. -/
def countSegmentsRequired (targetMMRSize height : ℕ) : ℕ :=
  (countLeaves targetMMRSize + 2 ^ height - 1) / 2 ^ height

/-- `SegmentIdentifier::GetPMMRSize`. -/
def getPMMRSize (numSegments height : ℕ) : ℕ :=
  if numSegments = 0 then 0 else leafPosition (numSegments * 2 ^ height)

end SegmentIdentifier

/-! ### Proofs -/

/-- `SegmentProof`. -/
structure SegmentProof where
  /-- `m_hashes`. -/
  hashes : List Hash
deriving DecidableEq

namespace SegmentProof

variable (G : Global)

/-- The first loop of `SegmentProof::ReconstructRoot`: up to the peak, from the parents that
are not below the subtree on. -/
def climbBranch (segmentUnprunedPos : ℕ) :
    List (ℕ × ℕ) → Hash → List Hash → Option (Hash × List Hash)
  | [], root, hashes => some (root, hashes)
  | (parentPos, siblingPos) :: branch, root, hashes =>
    if parentPos < segmentUnprunedPos then climbBranch segmentUnprunedPos branch root hashes
    else
      match hashes with
      | [] => none
      | sibling :: hashes =>
        if isLeftSibling siblingPos then
          climbBranch segmentUnprunedPos branch (hashParentWithIndex G sibling root parentPos)
            hashes
        else
          climbBranch segmentUnprunedPos branch (hashParentWithIndex G root sibling parentPos)
            hashes

/-- The peaks to the right come in one hash. -/
def mergeRight (mmrSize peakPos : ℕ) (root : Hash) (hashes : List Hash) :
    Option (Hash × List Hash) :=
  if (getPeakIndices mmrSize).any (peakPos < ·) then
    match hashes with
    | [] => none
    | rhs :: hashes => some (hashParentWithIndex G root rhs mmrSize, hashes)
  else some (root, hashes)

/-- The peaks to the left come one by one, from the last to the first. -/
def mergeLeft (mmrSize segmentFirstPos : ℕ) :
    List ℕ → Hash → List Hash → Option (Hash × List Hash)
  | [], root, hashes => some (root, hashes)
  | peak :: peaks, root, hashes =>
    if segmentFirstPos ≤ peak then mergeLeft mmrSize segmentFirstPos peaks root hashes
    else
      match hashes with
      | [] => none
      | lhs :: hashes =>
        mergeLeft mmrSize segmentFirstPos peaks (hashParentWithIndex G lhs root mmrSize) hashes

/-- `SegmentProof::ReconstructRoot`. -/
def reconstructRoot (proof : SegmentProof) (mmrSize segmentFirstPos segmentLastPos : ℕ)
    (segmentRoot : Hash) (segmentUnprunedPos : ℕ) : Option Hash := do
  let branch := familyBranch segmentLastPos mmrSize
  let (root, hashes) ← climbBranch G segmentUnprunedPos branch segmentRoot proof.hashes
  let peakPos := match branch.getLast? with
    | none => segmentLastPos
    | some entry => entry.1
  let (root, hashes) ← mergeRight G mmrSize peakPos root hashes
  let (root, hashes) ←
    mergeLeft G mmrSize segmentFirstPos (getPeakIndices mmrSize).reverse root hashes
  if hashes.isEmpty then some root else none

/-- `SegmentProof::Validate`. -/
def validate (proof : SegmentProof) (mmrSize segmentFirstPos segmentLastPos : ℕ)
    (segmentRoot : Hash) (segmentUnprunedPos : ℕ) (expectedRoot : Hash) : Bool :=
  proof.reconstructRoot G mmrSize segmentFirstPos segmentLastPos segmentRoot
    segmentUnprunedPos == some expectedRoot

/-- `SegmentProof::ValidateWith`: the root is merged with another one first. -/
def validateWith (proof : SegmentProof) (mmrSize segmentFirstPos segmentLastPos : ℕ)
    (segmentRoot : Hash) (segmentUnprunedPos hashLastPos : ℕ) (otherRoot : Hash)
    (otherIsLeft : Bool) (expectedRoot : Hash) : Bool :=
  match proof.reconstructRoot G mmrSize segmentFirstPos segmentLastPos segmentRoot
      segmentUnprunedPos with
  | none => false
  | some root =>
    (if otherIsLeft then hashParentWithIndex G otherRoot root hashLastPos
      else hashParentWithIndex G root otherRoot hashLastPos) == expectedRoot

end SegmentProof

/-! ### Segments -/

/-- `Segment`. -/
structure Segment (α : Type) where
  /-- `m_id`. -/
  id : SegmentIdentifier
  /-- `m_hash_pos`. -/
  hashPos : List ℕ
  /-- `m_hashes`. -/
  hashes : List Hash
  /-- `m_leaf_pos`. -/
  leafPos : List ℕ
  /-- `m_leaves`. -/
  leaves : List α
  /-- `m_proof`. -/
  proof : SegmentProof
deriving DecidableEq

namespace Segment

variable {α : Type} (G : Global) (serialized : α → List UInt8)

/-- What `Segment::Deserialize` lets through: as many positions as values, strictly
ascending. -/
structure Deserialized (s : Segment α) : Prop where
  /-- The positions of the hashes ascend … -/
  hashPos_sorted : s.hashPos.Pairwise (· < ·)
  /-- … and there is one for each hash. -/
  length_hashes : s.hashPos.length = s.hashes.length
  /-- The positions of the leaves ascend … -/
  leafPos_sorted : s.leafPos.Pairwise (· < ·)
  /-- … and there is one for each leaf. -/
  length_leaves : s.leafPos.length = s.leaves.length

/-- The leaf that is supplied at a position. -/
def getLeafAt (s : Segment α) (position : ℕ) : Option α :=
  (s.leafPos.zip s.leaves).lookup position

/-- `Segment::GetProvidedStoredHash`. -/
def getProvidedStoredHash (s : Segment α) (position : ℕ) : Option Hash :=
  (s.hashPos.zip s.hashes).lookup position

/-- The hash of an inner node in `Segment::Root`, from what its children have. With a bitmap a
child that has nothing is looked up among the supplied hashes, unless neither has anything. -/
def parentHash (s : Segment α) (useBitmap : Bool) (position : ℕ)
    (leftHash rightHash : Option Hash) : Option (Option Hash) :=
  let height := Index.calculateHeight position
  if useBitmap && leftHash.isNone && rightHash.isNone then some none
  else
    let leftHash :=
      if useBitmap && leftHash.isNone then
        s.getProvidedStoredHash (Index.getLeftChild position height)
      else leftHash
    let rightHash :=
      if useBitmap && rightHash.isNone then
        s.getProvidedStoredHash (Index.getRightChild position)
      else rightHash
    match leftHash, rightHash with
    | some left, some right => some (some (hashParentWithIndex G left right position))
    | _, _ => none

/-- Whether `Segment::Root` asks for the leaf at a position. -/
def leafRequired (bitmap : Option BitmapAccumulator) (position mmrSize : ℕ) : Bool :=
  match bitmap with
  | none => true
  | some bitmap => isLeafRequiredByBitmap bitmap position mmrSize

/-- The loop of `Segment::Root` over the positions, with the stack of the hashes. -/
def rootLoop (s : Segment α) (mmrSize : ℕ) (bitmap : Option BitmapAccumulator) :
    List ℕ → List (Option Hash) → Option (List (Option Hash))
  | [], stack => some stack
  | position :: positions, stack =>
    if Index.calculateHeight position = 0 then
      if leafRequired bitmap position mmrSize then
        match s.getLeafAt position with
        | none => none
        | some leaf =>
          rootLoop s mmrSize bitmap positions
            (some (hashLeafWithIndex G (serialized leaf) position) :: stack)
      else rootLoop s mmrSize bitmap positions (none :: stack)
    else
      match stack with
      | rightHash :: leftHash :: stack =>
        match parentHash G s bitmap.isSome position leftHash rightHash with
        | none => none
        | some hash => rootLoop s mmrSize bitmap positions (hash :: stack)
      | _ => none

/-- The loop of `Segment::Root` over the peaks of a segment that is not full, from the last
peak to the first. -/
def mergePeaks (s : Segment α) (mmrSize : ℕ) (useBitmap : Bool) (posRange : ℕ × ℕ) :
    List ℕ → List (Option Hash) → Option Hash → Option (Option Hash)
  | [], _, root => some root
  | peakPos :: peaks, stack, root =>
    if peakPos < posRange.1 ∨ posRange.2 < peakPos then
      mergePeaks s mmrSize useBitmap posRange peaks stack root
    else
      match stack with
      | [] => none
      | peakHash :: stack =>
        let peakHash :=
          if peakHash.isNone && useBitmap then s.getProvidedStoredHash peakPos else peakHash
        match peakHash with
        | none => none
        | some hash =>
          mergePeaks s mmrSize useBitmap posRange peaks stack
            (some (match root with
              | some root => hashParentWithIndex G hash root mmrSize
              | none => hash))

/-- `Segment::Root`. -/
def root (s : Segment α) (mmrSize : ℕ) (bitmap : Option BitmapAccumulator) : Option Hash :=
  if s.hashPos.length ≠ s.hashes.length ∨ s.leafPos.length ≠ s.leaves.length then none
  else
    let posRange := s.id.getPositionRange mmrSize
    if posRange.2 < posRange.1 ∨ mmrSize = 0 then none
    else
      match rootLoop G serialized s mmrSize bitmap
          (List.range' posRange.1 (posRange.2 - posRange.1 + 1)) [] with
      | none => none
      | some stack =>
        if s.id.getSegmentUnprunedSize mmrSize = s.id.getSegmentCapacity then stack.head?.join
        else
          (mergePeaks G s mmrSize bitmap.isSome posRange (getPeakIndices mmrSize).reverse
            stack none).join

/-- The loop of `Segment::FirstUnprunedParent` over the parents of the segment. -/
def firstUnprunedAbove (s : Segment α) (mmrSize : ℕ) (bitmap : BitmapAccumulator) :
    List (ℕ × ℕ) → Option (Hash × ℕ)
  | [] => none
  | (parentPos, _) :: branch =>
    if isRequiredByBitmap bitmap (Index.ofPosition parentPos) mmrSize then none
    else
      match s.getProvidedStoredHash parentPos with
      | some hash => some (hash, parentPos + 1)
      | none => firstUnprunedAbove s mmrSize bitmap branch

/-- `Segment::FirstUnprunedParent`: the root of the segment, or the hash of a subtree without
set leaves that the segment belongs to. -/
def firstUnprunedParent (s : Segment α) (mmrSize : ℕ) (bitmap : Option BitmapAccumulator) :
    Option (Hash × ℕ) :=
  let posRange := s.id.getPositionRange mmrSize
  match s.root G serialized mmrSize bitmap with
  | some root => some (root, posRange.2 + 1)
  | none =>
    match bitmap with
    | none => none
    | some bitmap =>
      if s.id.getSegmentUnprunedSize mmrSize ≠ s.id.getSegmentCapacity then none
      else if isRequiredByBitmap bitmap (Index.ofPosition posRange.2) mmrSize then none
      else
        match s.getProvidedStoredHash posRange.2 with
        | some hash => some (hash, posRange.2 + 1)
        | none => firstUnprunedAbove s mmrSize bitmap (familyBranch posRange.2 mmrSize)

/-- `Segment::Validate`. -/
def validate (s : Segment α) (mmrSize : ℕ) (mmrRoot : Hash)
    (bitmap : Option BitmapAccumulator) : Bool :=
  match s.firstUnprunedParent G serialized mmrSize bitmap with
  | none => false
  | some (hash, unprunedPos) =>
    let posRange := s.id.getPositionRange mmrSize
    s.proof.validate G mmrSize posRange.1 posRange.2 hash unprunedPos mmrRoot

/-- `Segment::ValidateWith`. -/
def validateWith (s : Segment α) (mmrSize : ℕ) (mmrRoot : Hash) (hashLastPos : ℕ)
    (otherRoot : Hash) (otherIsLeft : Bool) (bitmap : Option BitmapAccumulator) : Bool :=
  match s.firstUnprunedParent G serialized mmrSize bitmap with
  | none => false
  | some (hash, unprunedPos) =>
    let posRange := s.id.getPositionRange mmrSize
    s.proof.validateWith G mmrSize posRange.1 posRange.2 hash unprunedPos hashLastPos otherRoot
      otherIsLeft mmrRoot

end Segment

end GrinPlusPlus
