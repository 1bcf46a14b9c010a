import GrinPlusPlus.Core.Serialization
import GrinPlusPlus.Pmmr.Bitmap

/-!
# The desegmenter

`TxHashSetDesegmenter`, which checks the segments of a download against the header and keeps
them until they can be applied: the output bitmap first, and then outputs, range proofs and
kernels.

What is accepted is a matter of the header alone, except for outputs and range proofs, where
the bitmap decides which leaves have to be there.
-/

namespace GrinPlusPlus

open Exec PostOrder MMRHashUtil MMRUtil

/-! ### Parameters -/

/-- `SegmentType`. -/
inductive SegmentType
  | outputBitmap
  | output
  | rangeProof
  | kernel
deriving DecidableEq

namespace PIBD

/-- `BITMAP_SEGMENT_HEIGHT`. -/
def bitmapSegmentHeight : ℕ := 9

/-- `OUTPUT_SEGMENT_HEIGHT`. -/
def outputSegmentHeight : ℕ := 11

/-- `RANGEPROOF_SEGMENT_HEIGHT`. -/
def rangeProofSegmentHeight : ℕ := 11

/-- `KERNEL_SEGMENT_HEIGHT`. -/
def kernelSegmentHeight : ℕ := 11

/-- `BITMAP_SEGMENT_MIN_HEIGHT` and the others. -/
def segmentMinHeight : SegmentType → ℕ
  | .outputBitmap => 9
  | .output => 11
  | .rangeProof => 7
  | .kernel => 9

/-- `BITMAP_SEGMENT_MAX_HEIGHT` and the others. -/
def segmentMaxHeight : SegmentType → ℕ
  | .outputBitmap => 14
  | .output => 16
  | .rangeProof => 12
  | .kernel => 14

end PIBD

open PIBD

/-! ### The state -/

/-- `TxHashSetDesegmenter`, without the counters of what has to be asked for. -/
structure TxHashSetDesegmenter where
  /-- `m_archiveHeader`. -/
  archiveHeader : BlockHeader
  /-- `m_bitmapAccumulator`. -/
  bitmapAccumulator : BitmapAccumulator
  /-- `m_bitmapCacheComplete`. -/
  bitmapCacheComplete : Bool
  /-- `m_bitmapMMRSize`. -/
  bitmapMMRSize : ℕ
  /-- `m_appliedBitmapMMRSize`. -/
  appliedBitmapMMRSize : ℕ
  /-- `m_bitmapSegments`. -/
  bitmapSegments : List (Segment BitmapChunk)
  /-- `m_outputSegments`. -/
  outputSegments : List (Segment OutputIdentifier)
  /-- `m_rangeProofSegments`. -/
  rangeProofSegments : List (Segment RangeProof)
  /-- `m_kernelSegments`. -/
  kernelSegments : List (Segment TransactionKernel)

namespace TxHashSetDesegmenter

/-- The chunks of the bitmap of a header. -/
def bitmapLeaves (header : BlockHeader) : ℕ :=
  (countLeaves header.getOutputMMRSize + 1024 - 1) / 1024

/-- `TxHashSetDesegmenter::CalculateBitmapMMRSizes`. -/
def calculateBitmapMMRSize (header : BlockHeader) : ℕ :=
  if bitmapLeaves header = 0 then 0 else leafPosition (bitmapLeaves header)

/-- The constructor, and `TxHashSetDesegmenter::Reset`. -/
def reset (archiveHeader : BlockHeader) : TxHashSetDesegmenter where
  archiveHeader := archiveHeader
  bitmapAccumulator := .empty
  bitmapCacheComplete := false
  bitmapMMRSize := calculateBitmapMMRSize archiveHeader
  appliedBitmapMMRSize := 0
  bitmapSegments := []
  outputSegments := []
  rangeProofSegments := []
  kernelSegments := []

/-- `TxHashSetDesegmenter::IsBitmapComplete`. -/
def isBitmapComplete (d : TxHashSetDesegmenter) : Bool :=
  d.bitmapCacheComplete

/-- `TxHashSetDesegmenter::GetBitmapAccumulator`. -/
def getBitmapAccumulator (d : TxHashSetDesegmenter) : BitmapAccumulator :=
  d.bitmapAccumulator

/-- `TxHashSetDesegmenter::ValidateHeight`. -/
def validateHeight (type : SegmentType) (height : UInt8) : Bool :=
  decide (segmentMinHeight type ≤ height.toNat ∧ height.toNat ≤ segmentMaxHeight type)

/-- `TxHashSetDesegmenter::CacheSegment`: the first segment with an identifier stays. -/
def cacheSegment {α : Type} (cache : List (Segment α)) (segment : Segment α) :
    List (Segment α) :=
  match cache.find? fun cached => cached.id = segment.id with
  | none => cache ++ [segment]
  | some _ => cache

/-! ### Segments are accepted -/

variable (G : Global)

/-- `TxHashSetDesegmenter::AddBitmapSegment`. -/
def addBitmapSegment (bitmapSegment : BitmapSegment) (outputRoot : Hash) :
    Exec Exc TxHashSetDesegmenter Bool := do
  let segment ← Exec.ofExcept bitmapSegment.toSegment
  if ¬validateHeight .outputBitmap segment.id.height then pure false
  else do
    let d ← get
    if ¬segment.validateWith G CBigInteger.bytes d.bitmapMMRSize d.archiveHeader.outputRoot
        d.archiveHeader.getOutputMMRSize outputRoot true none then pure false
    else do
      modify fun d => { d with bitmapSegments := cacheSegment d.bitmapSegments segment }
      pure true

/-- `TxHashSetDesegmenter::AddOutputSegment`. The bitmap root of the message is only logged. -/
def addOutputSegment (segment : Segment OutputIdentifier) :
    Exec Exc TxHashSetDesegmenter Bool := do
  let d ← get
  if ¬validateHeight .output segment.id.height then pure false
  else if ¬d.bitmapCacheComplete then pure false
  else
    match segment.firstUnprunedParent G OutputIdentifier.serialize
        d.archiveHeader.getOutputMMRSize (some d.bitmapAccumulator) with
    | none => pure false
    | some (hash, unprunedPos) =>
      let posRange := segment.id.getPositionRange d.archiveHeader.getOutputMMRSize
      let localBitmapRoot := d.bitmapAccumulator.root G
      if ¬segment.proof.validateWith G d.archiveHeader.getOutputMMRSize posRange.1 posRange.2
          hash unprunedPos d.archiveHeader.getOutputMMRSize localBitmapRoot false
          d.archiveHeader.outputRoot then pure false
      else do
        modify fun d => { d with outputSegments := cacheSegment d.outputSegments segment }
        pure true

/-- The check that `TxHashSetDesegmenter::AddRangeProofSegment` and
`TxHashSetDesegmenter::AddKernelSegment` share: the segment and its proof lead to the root. -/
def validatesTo {α : Type} (serialized : α → List UInt8) (segment : Segment α) (mmrSize : ℕ)
    (bitmap : Option BitmapAccumulator) (mmrRoot : Hash) : Bool :=
  match segment.firstUnprunedParent G serialized mmrSize bitmap with
  | none => false
  | some (hash, unprunedPos) =>
    let posRange := segment.id.getPositionRange mmrSize
    match segment.proof.reconstructRoot G mmrSize posRange.1 posRange.2 hash unprunedPos with
    | none => false
    | some reconstructedRoot => reconstructedRoot == mmrRoot

/-- `TxHashSetDesegmenter::AddRangeProofSegment`. -/
def addRangeProofSegment (segment : Segment RangeProof) :
    Exec Exc TxHashSetDesegmenter Bool := do
  let d ← get
  if ¬validateHeight .rangeProof segment.id.height then pure false
  else if ¬d.bitmapCacheComplete then pure false
  else if ¬validatesTo G RangeProof.serialize segment d.archiveHeader.getOutputMMRSize
      (some d.bitmapAccumulator) d.archiveHeader.rangeProofRoot then pure false
  else do
    modify fun d => { d with rangeProofSegments := cacheSegment d.rangeProofSegments segment }
    pure true

/-- `TxHashSetDesegmenter::AddKernelSegment`. -/
def addKernelSegment (segment : Segment TransactionKernel) :
    Exec Exc TxHashSetDesegmenter Bool := do
  let d ← get
  if ¬validateHeight .kernel segment.id.height then pure false
  else if ¬validatesTo G TransactionKernel.serialize segment d.archiveHeader.getKernelMMRSize
      none d.archiveHeader.kernelRoot then pure false
  else do
    modify fun d => { d with kernelSegments := cacheSegment d.kernelSegments segment }
    pure true

/-! ### Segments of the bitmap are applied -/

/-- `TxHashSetDesegmenter::NextRequiredSegmentIndex`. -/
def nextRequiredSegmentIndex (localMMRSize height : ℕ) : ℕ :=
  if localMMRSize = 0 ∨ localMMRSize = 1 then 0
  else
    let segmentCount := SegmentIdentifier.countSegmentsRequired localMMRSize height
    let theoreticalSize := SegmentIdentifier.getPMMRSize segmentCount height
    if 0 < segmentCount ∧ localMMRSize < theoreticalSize then segmentCount - 1
    else segmentCount

/-- `TxHashSetDesegmenter::ApplyNextBitmapSegment`: every chunk of the next segment is
appended. -/
def applyNextBitmapSegment : Exec Exc TxHashSetDesegmenter Bool := do
  let d ← get
  let nextIndex := nextRequiredSegmentIndex d.appliedBitmapMMRSize bitmapSegmentHeight
  match d.bitmapSegments.find? fun segment => segment.id.index.toNat = nextIndex with
  | none => pure false
  | some segment => do
    let bitmapAccumulator :=
      segment.leaves.foldl (BitmapAccumulator.appendChunk G) d.bitmapAccumulator
    modify fun d =>
      { d with
        bitmapAccumulator := bitmapAccumulator
        appliedBitmapMMRSize := bitmapAccumulator.getMMRSize
        bitmapSegments :=
          d.bitmapSegments.eraseP fun segment => segment.id.index.toNat = nextIndex
        bitmapCacheComplete := bitmapAccumulator.getMMRSize == d.bitmapMMRSize }
    pure true

end TxHashSetDesegmenter

end GrinPlusPlus
