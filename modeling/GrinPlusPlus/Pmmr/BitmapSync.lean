import GrinPlusPlus.Pmmr.KernelSync
import GrinPlusPlus.Pmmr.SegmentLanes

/-!
# The download of the output bitmap

What the accumulated bitmap is when `TxHashSetDesegmenter::IsBitmapComplete` says that it is
complete, after any calls of `AddBitmapSegment` and `ApplyNextBitmapSegment`.

Completeness is decided by the size alone, and applying a segment appends all of its chunks.
As long as no accepted segment brings more chunks than its block has, the chunks are those of
the accepted segments in order (`GrinPlusPlus.BitmapSync.Inv`): a segment is only taken when
it starts where the bitmap ends, and the header commits to each of its chunks. A bitmap of the
right size then has the root that the header commits to
(`GrinPlusPlus.BitmapSync.bitmap_agrees`). A surplus chunk counts as a chunk of the next block,
without having been checked.
-/

namespace GrinPlusPlus

open Exec PostOrder Mountain MMRHashUtil MMRUtil

namespace BitmapSync

open TxHashSetDesegmenter

/-! ### Calls -/

/-- The calls that concern the bitmap. -/
inductive Call
  | addBitmapSegment (bitmapSegment : BitmapSegment) (outputRoot : Hash)
  | applyNextBitmapSegment
deriving DecidableEq

variable (G : Global) (header : BlockHeader)

/-- The state after a call, whether it returned or threw. -/
def step (call : Call) (d : TxHashSetDesegmenter) : TxHashSetDesegmenter :=
  match call with
  | .addBitmapSegment bitmapSegment outputRoot =>
    (run (addBitmapSegment G bitmapSegment outputRoot) d).2
  | .applyNextBitmapSegment => (run (applyNextBitmapSegment G) d).2

/-- The state after some calls. -/
def steps (calls : List Call) (d : TxHashSetDesegmenter) : TxHashSetDesegmenter :=
  calls.foldl (fun d call => step G call d) d

/-- A segment is accepted for a header. -/
def Accepted (segment : Segment BitmapChunk) (outputRoot : Hash) : Prop :=
  segment.validateWith G CBigInteger.bytes (calculateBitmapMMRSize header) header.outputRoot
    header.getOutputMMRSize outputRoot true none = true

/-- The segments of a call have the standard height. -/
def StandardHeight : Call → Prop
  | .addBitmapSegment bitmapSegment _ =>
    bitmapSegment.identifier.height.toNat = PIBD.bitmapSegmentHeight
  | .applyNextBitmapSegment => True

/-- When the segment of a call is accepted, it has no chunk behind its block. -/
def StaysInBlock : Call → Prop
  | .addBitmapSegment bitmapSegment outputRoot =>
    ∀ segment, bitmapSegment.toSegment = .ok segment → Accepted G header segment outputRoot →
      segment.leaves.length ≤
        segment.id.getSegmentUnprunedSize (calculateBitmapMMRSize header)
  | .applyNextBitmapSegment => True

/-- **What the bitmap is for**: with some output root it gives the output root of the header. -/
def Agrees (d : TxHashSetDesegmenter) : Prop :=
  ∃ outputRoot, hashParentWithIndex G outputRoot (d.getBitmapAccumulator.root G)
    header.getOutputMMRSize = header.outputRoot

/-! ### What a segment binds -/

/-- The header commits to a chunk: with some output root, the root of the bitmap does. -/
def Commits (i : ℕ) (chunk : BitmapChunk) : Prop :=
  ∃ outputRoot bitmapRoot,
    hashParentWithIndex G outputRoot bitmapRoot header.getOutputMMRSize = header.outputRoot ∧
      Segment.Commits G (calculateBitmapMMRSize header) bitmapRoot i
        (hashLeafWithIndex G chunk.bytes (leafPos i))

/-- A segment that was accepted, and stays in its block. -/
structure Valid (segment : Segment BitmapChunk) : Prop where
  /-- It has the standard height. -/
  height_eq : segment.id.height.toNat = PIBD.bitmapSegmentHeight
  /-- It supplies no hashes. -/
  hashPos_eq : segment.hashPos = []
  /-- It supplies no hashes. -/
  hashes_eq : segment.hashes = []
  /-- The positions follow from the number of chunks. -/
  leafPos_eq : segment.leafPos =
    (List.range segment.leaves.length).map (BitmapSegment.leafPositionAt segment.id)
  /-- It stays in its block. -/
  length_le : segment.leaves.length ≤
    segment.id.getSegmentUnprunedSize (calculateBitmapMMRSize header)
  /-- It was accepted. -/
  accepted : ∃ outputRoot, Accepted G header segment outputRoot

variable {G header} {d : TxHashSetDesegmenter} {segment : Segment BitmapChunk}

/-- The bitmap has few leaves. -/
theorem bitmapLeaves_lt : bitmapLeaves header < 2 ^ 54 := by
  have h : countLeaves header.getOutputMMRSize < 2 ^ 63 := by
    rw [countLeaves]
    split
    · decide
    · exact Nat.mod_lt _ (by decide)
  rw [bitmapLeaves]
  omega

theorem calculateBitmapMMRSize_eq :
    calculateBitmapMMRSize header = leafPos (bitmapLeaves header) := by
  rw [calculateBitmapMMRSize]
  split
  · next h =>
    rw [h]
    rfl
  · rfl

theorem countLeaves_calculateBitmapMMRSize :
    countLeaves (calculateBitmapMMRSize header) = bitmapLeaves header := by
  rw [calculateBitmapMMRSize_eq, countLeaves_leafPos (lt_trans bitmapLeaves_lt (by decide))]

theorem leafPos_le_two_mul (n : ℕ) : leafPos n ≤ 2 * n :=
  Nat.sub_le ..

theorem calculateBitmapMMRSize_lt : calculateBitmapMMRSize header < 2 ^ 64 := by
  have h1 : bitmapLeaves header < 2 ^ 54 := bitmapLeaves_lt
  have h2 := leafPos_le_two_mul (bitmapLeaves header)
  rw [calculateBitmapMMRSize_eq]
  omega

/-- In front of the end of the bitmap the positions of a segment are not reduced. -/
theorem leafPositionAt_eq {id : SegmentIdentifier} {i : ℕ}
    (h : i < id.getSegmentUnprunedSize (calculateBitmapMMRSize header)) :
    BitmapSegment.leafPositionAt id i = leafPos (id.getLeafOffset + i) ∧
      id.getLeafOffset + i < bitmapLeaves header := by
  have h1 : bitmapLeaves header < 2 ^ 54 := bitmapLeaves_lt
  rw [SegmentIdentifier.getSegmentUnprunedSize, countLeaves_calculateBitmapMMRSize] at h
  split at h
  · cases h
  · have h2 := leafPos_le_two_mul (id.getLeafOffset + i)
    have hlt : id.getLeafOffset + i < bitmapLeaves header := by omega
    rw [BitmapSegment.leafPositionAt, leafPosition, Nat.mod_eq_of_lt (a := id.getLeafOffset + i)
      (by omega), Nat.mod_eq_of_lt (by omega)]
    exact ⟨rfl, hlt⟩

/-- The position of a chunk. -/
theorem Valid.getElem?_leafPos (h : Valid G header segment) {i : ℕ}
    (hi : i < segment.leaves.length) :
    segment.leafPos[i]? = some (leafPos (segment.id.getLeafOffset + i)) := by
  rw [h.leafPos_eq, List.getElem?_map, List.getElem?_range hi, Option.map_some,
    (leafPositionAt_eq (lt_of_lt_of_le hi h.length_le)).1]

theorem Valid.deserialized (h : Valid G header segment) : segment.Deserialized where
  hashPos_sorted := by
    rw [h.hashPos_eq]
    exact List.Pairwise.nil
  length_hashes := by rw [h.hashPos_eq, h.hashes_eq, List.length_nil, List.length_nil]
  leafPos_sorted := by
    rw [List.pairwise_iff_getElem]
    intro i j hi hj hlt
    have hlength : segment.leafPos.length = segment.leaves.length := by
      rw [h.leafPos_eq, List.length_map, List.length_range]
    have h1 := h.getElem?_leafPos (hlength ▸ hi)
    have h2 := h.getElem?_leafPos (hlength ▸ hj)
    rw [List.getElem?_eq_getElem hi, Option.some_inj] at h1
    rw [List.getElem?_eq_getElem hj, Option.some_inj] at h2
    rw [h1, h2]
    exact leafPos_strictMono (by omega)
  length_leaves := by rw [h.leafPos_eq, List.length_map, List.length_range]

/-- Acceptance with some output root is validity for some bitmap root. -/
theorem Accepted.exists_validate {outputRoot : Hash} (h : Accepted G header segment outputRoot) :
    ∃ bitmapRoot,
      hashParentWithIndex G outputRoot bitmapRoot header.getOutputMMRSize = header.outputRoot ∧
        segment.validate G CBigInteger.bytes (calculateBitmapMMRSize header) bitmapRoot none =
          true := by
  rw [Accepted, Segment.validateWith] at h
  rcases hparent : segment.firstUnprunedParent G CBigInteger.bytes (calculateBitmapMMRSize header)
    none with _ | ⟨hash, pos⟩
  · rw [hparent] at h
    cases h
  · rw [hparent] at h
    dsimp only at h
    rw [SegmentProof.validateWith] at h
    rcases hroot : segment.proof.reconstructRoot G (calculateBitmapMMRSize header)
      (segment.id.getPositionRange (calculateBitmapMMRSize header)).1
      (segment.id.getPositionRange (calculateBitmapMMRSize header)).2 hash pos with _ | bitmapRoot
    · rw [hroot] at h
      cases h
    · rw [hroot] at h
      refine ⟨bitmapRoot, by simpa using h, ?_⟩
      rw [Segment.validate, hparent]
      dsimp only
      rw [SegmentProof.validate, hroot]
      exact beq_self_eq_true _

/-- Only bitmaps with chunks have accepted segments. -/
theorem Valid.bitmapLeaves_pos (h : Valid G header segment) : 0 < bitmapLeaves header := by
  obtain ⟨outputRoot, haccepted⟩ := h.accepted
  obtain ⟨bitmapRoot, -, hvalid⟩ := haccepted.exists_validate
  by_contra hzero
  rw [Segment.validate, Segment.firstUnprunedParent, Segment.root_of_countLeaves_eq_zero (by
    rw [countLeaves_calculateBitmapMMRSize]
    omega)] at hvalid
  cases hvalid

/-! ### One segment -/

/-- **The chunks of a valid segment** are those that the header commits to. -/
theorem Valid.commits (h : Valid G header segment) {block : ℕ}
    (hindex : segment.id.index.toNat = block)
    (hbits : 2 ^ PIBD.bitmapSegmentHeight * block < bitmapLeaves header) :
    segment.leaves.length = min (2 ^ PIBD.bitmapSegmentHeight)
        (bitmapLeaves header - 2 ^ PIBD.bitmapSegmentHeight * block) ∧
      ∀ i chunk, segment.leaves[i]? = some chunk →
        Commits G header (2 ^ PIBD.bitmapSegmentHeight * block + i) chunk := by
  have hmax : bitmapLeaves header < 2 ^ 54 := bitmapLeaves_lt
  have hid : segment.id.Block PIBD.bitmapSegmentHeight block := by
    have hblock : segment.id.Block _ _ := SegmentIdentifier.block_of_lt (by
      rw [h.height_eq, hindex]
      omega)
    rwa [h.height_eq, hindex] at hblock
  have hsize : segment.id.getSegmentUnprunedSize (calculateBitmapMMRSize header) =
      min (2 ^ PIBD.bitmapSegmentHeight)
        (bitmapLeaves header - 2 ^ PIBD.bitmapSegmentHeight * block) := by
    rw [SegmentIdentifier.getSegmentUnprunedSize, countLeaves_calculateBitmapMMRSize,
      hid.offset_eq, if_neg (by omega), SegmentIdentifier.getSegmentCapacity, h.height_eq]
  obtain ⟨outputRoot, haccepted⟩ := h.accepted
  obtain ⟨bitmapRoot, houtput, hvalid⟩ := haccepted.exists_validate
  have hleaf : ∀ i, i < min (2 ^ PIBD.bitmapSegmentHeight)
      (bitmapLeaves header - 2 ^ PIBD.bitmapSegmentHeight * block) →
      ∃ chunk, segment.getLeafAt (leafPos (2 ^ PIBD.bitmapSegmentHeight * block + i)) =
        some chunk ∧ Commits G header (2 ^ PIBD.bitmapSegmentHeight * block + i) chunk := by
    intro i hi
    obtain ⟨chunk, hchunk, hcommits⟩ := Segment.commits_of_validate hid h.deserialized
      calculateBitmapMMRSize_lt hvalid
      (j := 2 ^ PIBD.bitmapSegmentHeight * block + i) (Nat.le_add_right ..)
      (by rw [Nat.mul_succ]; omega) (by rw [countLeaves_calculateBitmapMMRSize]; omega)
    exact ⟨chunk, hchunk, outputRoot, bitmapRoot, houtput, hcommits⟩
  have hlength : segment.leaves.length = min (2 ^ PIBD.bitmapSegmentHeight)
      (bitmapLeaves header - 2 ^ PIBD.bitmapSegmentHeight * block) := by
    refine le_antisymm (hsize ▸ h.length_le) ?_
    by_contra hlt
    -- The first chunk that is missing was needed.
    obtain ⟨chunk, hchunk, -⟩ := hleaf segment.leaves.length (by omega)
    have hmem := (List.of_mem_zip (Segment.mem_zip_of_getLeafAt hchunk)).1
    obtain ⟨j, hj, heq⟩ := List.mem_iff_getElem.mp hmem
    have hj' : j < segment.leaves.length := by
      rwa [h.deserialized.length_leaves] at hj
    have hget := h.getElem?_leafPos hj'
    rw [List.getElem?_eq_getElem hj, Option.some_inj, heq, hid.offset_eq] at hget
    have := leafPos_strictMono.injective hget
    omega
  refine ⟨hlength, fun i chunk hi => ?_⟩
  have hi' := (List.getElem?_eq_some_iff.mp hi).1
  obtain ⟨chunk', hchunk', hcommits⟩ := hleaf i (by omega)
  have hmem : (leafPos (2 ^ PIBD.bitmapSegmentHeight * block + i), chunk) ∈
      segment.leafPos.zip segment.leaves := by
    have hpos := h.getElem?_leafPos hi'
    rw [hid.offset_eq] at hpos
    exact List.mem_of_getElem? (List.getElem?_zip_eq_some.mpr ⟨hpos, hi⟩)
  rw [h.deserialized.getLeafAt_eq hmem] at hchunk'
  cases hchunk'
  exact hcommits

/-! ### The invariant -/

/-- The chunks so far are the first ones that the header commits to, up to the end of a block;
or there are too many. -/
def Progress (G : Global) (header : BlockHeader) (chunks : List BitmapChunk) : Prop :=
  chunks.length ≤ bitmapLeaves header →
    (chunks.length % 2 ^ PIBD.bitmapSegmentHeight = 0 ∨ chunks.length = bitmapLeaves header) ∧
      ∀ i chunk, chunks[i]? = some chunk → Commits G header i chunk

/-- **The invariant** of the download. -/
structure Inv (G : Global) (header : BlockHeader) (d : TxHashSetDesegmenter) : Prop where
  /-- The header stays. -/
  archiveHeader_eq : d.archiveHeader = header
  /-- So does the size that is expected. -/
  bitmapMMRSize_eq : d.bitmapMMRSize = calculateBitmapMMRSize header
  /-- The accumulator is a range. -/
  holds : d.bitmapAccumulator.Holds G
  /-- What was applied is what is in it. -/
  appliedBitmapMMRSize_eq : d.appliedBitmapMMRSize = d.bitmapAccumulator.getMMRSize
  /-- The segments that wait were accepted. -/
  valid : ∀ segment ∈ d.bitmapSegments, Valid G header segment
  /-- The chunks are right. -/
  progress : Progress G header d.bitmapAccumulator.chunks
  /-- A complete bitmap has the size that is expected. -/
  complete : d.bitmapCacheComplete = true →
    0 < bitmapLeaves header ∧ d.bitmapAccumulator.getMMRSize = d.bitmapMMRSize

theorem inv_reset : Inv G header (.reset header) where
  archiveHeader_eq := rfl
  bitmapMMRSize_eq := rfl
  holds := BitmapAccumulator.holds_empty
  appliedBitmapMMRSize_eq := rfl
  valid := nofun
  progress := fun _ => ⟨.inl rfl, nofun⟩
  complete := nofun

/-- **Applying a segment** keeps the chunks right. -/
theorem Progress.append {chunks : List BitmapChunk} (h : Progress G header chunks)
    (hvalid : Valid G header segment)
    (hindex : segment.id.index.toNat =
      nextRequiredSegmentIndex (leafPos chunks.length) PIBD.bitmapSegmentHeight) :
    Progress G header (chunks ++ segment.leaves) := by
  intro hle
  rw [List.length_append] at hle
  have hmax : bitmapLeaves header < 2 ^ 54 := bitmapLeaves_lt
  obtain ⟨hblock, hcommits⟩ := h (by omega)
  rcases Nat.eq_or_lt_of_le (Nat.le_of_add_right_le hle) with hfull | hlt
  · -- Nothing can be appended to a bitmap that has all of its chunks.
    have hnil : segment.leaves = [] := List.eq_nil_of_length_eq_zero (by omega)
    rw [hnil, List.append_nil]
    exact ⟨.inr hfull, hcommits⟩
  · have hmod : chunks.length % 2 ^ PIBD.bitmapSegmentHeight = 0 := by
      rcases hblock with hmod | hfull
      · exact hmod
      · exact absurd hfull hlt.ne
    have hoffset : 2 ^ PIBD.bitmapSegmentHeight * (chunks.length / 2 ^ PIBD.bitmapSegmentHeight) =
        chunks.length := Nat.mul_div_cancel' (Nat.dvd_of_mod_eq_zero hmod)
    -- the next block starts where the whole blocks end
    have hnext := nextRequiredSegmentIndex_full (h := PIBD.bitmapSegmentHeight)
      (j := chunks.length / 2 ^ PIBD.bitmapSegmentHeight) (by decide)
      (by rw [Nat.mul_comm, hoffset]; omega)
    rw [Nat.mul_comm, hoffset] at hnext
    rw [hnext] at hindex
    obtain ⟨hlength, hleaves⟩ := hvalid.commits hindex (by rw [hoffset]; exact hlt)
    rw [hoffset] at hlength hleaves
    refine ⟨?_, fun i chunk hi => ?_⟩
    · rw [List.length_append, hlength]
      rw [PIBD.bitmapSegmentHeight] at *
      omega
    · rcases Nat.lt_or_ge i chunks.length with hold | hnew
      · rw [List.getElem?_append_left hold] at hi
        exact hcommits i chunk hi
      · rw [List.getElem?_append_right hnew] at hi
        have := hleaves _ _ hi
        rwa [Nat.add_sub_cancel' hnew] at this

/-! ### One call -/

/-- What `AddBitmapSegment` does: nothing, or it keeps a segment that was accepted. -/
theorem addBitmapSegment_cases (hinv : Inv G header d) (bitmapSegment : BitmapSegment)
    (outputRoot : Hash) :
    (run (addBitmapSegment G bitmapSegment outputRoot) d).2 = d ∨
      ∃ segment, bitmapSegment.toSegment = .ok segment ∧ Accepted G header segment outputRoot ∧
        (run (addBitmapSegment G bitmapSegment outputRoot) d).2 =
          { d with bitmapSegments := cacheSegment d.bitmapSegments segment } := by
  rw [addBitmapSegment]
  rcases hsegment : bitmapSegment.toSegment with e | segment
  · exact .inl rfl
  · rw [run_bind_ok (run_ofExcept (.ok segment) d)]
    split
    · exact .inl rfl
    · rw [run_bind_ok (run_get d)]
      split
      · exact .inl rfl
      · next haccepted =>
        refine .inr ⟨segment, rfl, ?_, rfl⟩
        rw [not_not, hinv.archiveHeader_eq, hinv.bitmapMMRSize_eq] at haccepted
        exact haccepted

/-- What `ApplyNextBitmapSegment` does when the next segment is there. -/
theorem applyNextBitmapSegment_eq {d : TxHashSetDesegmenter}
    (h : (d.bitmapSegments.find? fun segment => segment.id.index.toNat =
      nextRequiredSegmentIndex d.appliedBitmapMMRSize PIBD.bitmapSegmentHeight) = some segment) :
    (run (applyNextBitmapSegment G) d).2 =
      { d with
        bitmapAccumulator :=
          segment.leaves.foldl (BitmapAccumulator.appendChunk G) d.bitmapAccumulator
        appliedBitmapMMRSize :=
          (segment.leaves.foldl (BitmapAccumulator.appendChunk G) d.bitmapAccumulator).getMMRSize
        bitmapSegments := d.bitmapSegments.eraseP fun segment => segment.id.index.toNat =
          nextRequiredSegmentIndex d.appliedBitmapMMRSize PIBD.bitmapSegmentHeight
        bitmapCacheComplete :=
          (segment.leaves.foldl (BitmapAccumulator.appendChunk G) d.bitmapAccumulator).getMMRSize ==
            d.bitmapMMRSize } := by
  rw [applyNextBitmapSegment, run_bind_ok (run_get d)]
  dsimp only
  rw [h]
  rfl

/-- What `ApplyNextBitmapSegment` does: nothing, or it appends a segment that starts at the
end. -/
theorem applyNextBitmapSegment_cases (d : TxHashSetDesegmenter) :
    (run (applyNextBitmapSegment G) d).2 = d ∨
      ∃ segment ∈ d.bitmapSegments,
        segment.id.index.toNat =
          nextRequiredSegmentIndex d.appliedBitmapMMRSize PIBD.bitmapSegmentHeight ∧
        ∃ bitmapAccumulator bitmapSegments,
          bitmapAccumulator =
            segment.leaves.foldl (BitmapAccumulator.appendChunk G) d.bitmapAccumulator ∧
          bitmapSegments ⊆ d.bitmapSegments ∧
          (run (applyNextBitmapSegment G) d).2 =
            { d with
              bitmapAccumulator := bitmapAccumulator
              appliedBitmapMMRSize := bitmapAccumulator.getMMRSize
              bitmapSegments := bitmapSegments
              bitmapCacheComplete := bitmapAccumulator.getMMRSize == d.bitmapMMRSize } := by
  rcases hfind : d.bitmapSegments.find? fun segment => decide (segment.id.index.toNat =
    nextRequiredSegmentIndex d.appliedBitmapMMRSize PIBD.bitmapSegmentHeight) with _ | segment
  · rw [applyNextBitmapSegment, run_bind_ok (run_get d)]
    dsimp only
    exact .inl (by rw [hfind]; rfl)
  · exact .inr ⟨segment, List.mem_of_find?_eq_some hfind, by simpa using List.find?_some hfind,
      _, _, rfl, List.eraseP_subset, applyNextBitmapSegment_eq hfind⟩

/-- The segment of a call is valid when it is accepted and stays in its block. -/
theorem valid_of_toSegment {bitmapSegment : BitmapSegment} {outputRoot : Hash}
    (hsegment : bitmapSegment.toSegment = .ok segment)
    (haccepted : Accepted G header segment outputRoot)
    (hheight : StandardHeight (.addBitmapSegment bitmapSegment outputRoot))
    (hstays : StaysInBlock G header (.addBitmapSegment bitmapSegment outputRoot)) :
    Valid G header segment := by
  have hle := hstays segment hsegment haccepted
  rw [BitmapSegment.toSegment] at hsegment
  obtain ⟨chunks, -, hsegment⟩ := of_bind_eq_ok hsegment
  cases hsegment
  exact ⟨hheight, rfl, rfl, rfl, hle, outputRoot, haccepted⟩

theorem mem_cacheSegment {α : Type} {cache : List (Segment α)} {segment other : Segment α}
    (h : other ∈ cacheSegment cache segment) : other ∈ cache ∨ other = segment := by
  rw [cacheSegment] at h
  split at h
  · rcases List.mem_append.mp h with h | h
    · exact .inl h
    · exact .inr (List.mem_singleton.mp h)
  · exact .inl h

/-- **One step** keeps the invariant. -/
theorem Inv.step (hinv : Inv G header d) {call : Call} (hheight : StandardHeight call)
    (hstays : StaysInBlock G header call) : Inv G header (step G call d) := by
  match call with
  | .addBitmapSegment bitmapSegment outputRoot =>
    rw [BitmapSync.step]
    rcases addBitmapSegment_cases hinv bitmapSegment outputRoot with
      heq | ⟨segment, hsegment, haccepted, heq⟩
    · rwa [heq]
    · rw [heq]
      refine ⟨hinv.archiveHeader_eq, hinv.bitmapMMRSize_eq, hinv.holds,
        hinv.appliedBitmapMMRSize_eq, fun other hother => ?_, hinv.progress, hinv.complete⟩
      rcases mem_cacheSegment hother with hold | rfl
      · exact hinv.valid other hold
      · exact valid_of_toSegment hsegment haccepted hheight hstays
  | .applyNextBitmapSegment =>
    rw [BitmapSync.step]
    rcases applyNextBitmapSegment_cases (G := G) d with
      heq | ⟨segment, hmem, hindex, accumulator, segments, haccumulator, hsubset, heq⟩
    · rwa [heq]
    · have hvalid := hinv.valid segment hmem
      obtain ⟨hholds, hchunks⟩ := hinv.holds.foldl segment.leaves
      rw [← haccumulator] at hholds hchunks
      rw [hinv.appliedBitmapMMRSize_eq, hinv.holds.getMMRSize_eq] at hindex
      rw [heq]
      refine ⟨hinv.archiveHeader_eq, hinv.bitmapMMRSize_eq, hholds, rfl,
        fun other hother => hinv.valid other (hsubset hother), ?_, fun hcomplete => ?_⟩
      · rw [hchunks]
        exact hinv.progress.append hvalid hindex
      · exact ⟨hvalid.bitmapLeaves_pos, beq_iff_eq.mp hcomplete⟩

/-- **A run** keeps the invariant. -/
theorem Inv.steps (hinv : Inv G header d) {calls : List Call}
    (hheight : ∀ call ∈ calls, StandardHeight call)
    (hstays : ∀ call ∈ calls, StaysInBlock G header call) : Inv G header (steps G calls d) := by
  induction calls generalizing d with
  | nil => exact hinv
  | cons call calls ih =>
    have hstep := hinv.step (hheight call (List.mem_cons_self ..))
      (hstays call (List.mem_cons_self ..))
    exact ih hstep (fun c hc => hheight c (List.mem_cons_of_mem _ hc))
      fun c hc => hstays c (List.mem_cons_of_mem _ hc)

/-! ### A complete bitmap -/

/-- The output roots that accepted segments came with are one, and so are the bitmap roots. -/
theorem exists_bitmapRoot (hG : G.InjectiveWithIndex) {chunks : List BitmapChunk}
    (hne : 0 < chunks.length)
    (hcommits : ∀ i chunk, chunks[i]? = some chunk → Commits G header i chunk) :
    ∃ outputRoot bitmapRoot,
      hashParentWithIndex G outputRoot bitmapRoot header.getOutputMMRSize = header.outputRoot ∧
        ∀ i chunk, chunks[i]? = some chunk →
          Segment.Commits G (calculateBitmapMMRSize header) bitmapRoot i
            (hashLeafWithIndex G chunk.bytes (leafPos i)) := by
  obtain ⟨outputRoot, bitmapRoot, houtput, -⟩ :=
    hcommits 0 chunks[0] (List.getElem?_eq_getElem hne)
  refine ⟨outputRoot, bitmapRoot, houtput, fun i chunk hi => ?_⟩
  obtain ⟨outputRoot', bitmapRoot', houtput', hchunk⟩ := hcommits i chunk hi
  have heq := hG.parent _ _ _ _ _ _ (houtput.trans houtput'.symm)
  rwa [heq.2.2]

/-- **A complete bitmap agrees with the header.** -/
theorem Inv.agrees (hG : G.InjectiveWithIndex) (hz : G.NonzeroWithIndex) (hinv : Inv G header d)
    (hcomplete : d.isBitmapComplete = true) : Agrees G header d := by
  obtain ⟨hpos, hsize⟩ := hinv.complete hcomplete
  have hlength : d.bitmapAccumulator.chunks.length = bitmapLeaves header := by
    rw [hinv.holds.getMMRSize_eq, hinv.bitmapMMRSize_eq, calculateBitmapMMRSize_eq] at hsize
    exact leafPos_strictMono.injective hsize
  obtain ⟨outputRoot, bitmapRoot, houtput, hchunks⟩ :=
    exists_bitmapRoot hG (hlength ▸ hpos) (hinv.progress hlength.le).2
  refine ⟨outputRoot, ?_⟩
  have hlength' : (d.bitmapAccumulator.chunks.map CBigInteger.bytes).length =
      bitmapLeaves header := by
    rw [List.length_map, hlength]
  have hroot := root_of_commits hG hz hinv.holds (r := bitmapRoot) (by rw [hlength']; exact hpos)
    (by
      intro j leaf hleaf
      rw [List.getElem?_map, Option.map_eq_some_iff] at hleaf
      obtain ⟨chunk, hchunk, rfl⟩ := hleaf
      rw [hlength', ← calculateBitmapMMRSize_eq]
      exact hchunks j chunk hchunk)
  rw [hlength', ← hlength] at hroot
  rw [getBitmapAccumulator, hinv.holds.root_eq hz hroot]
  exact houtput

/-- **Bitmap agreement.** Whatever segments of the standard height are sent, in whatever order
and with whatever output roots, and whenever segments are applied: as long as every accepted
segment stays in its block, a complete bitmap is the one that the header commits to. -/
theorem bitmap_agrees (hG : G.InjectiveWithIndex) (hz : G.NonzeroWithIndex) {calls : List Call}
    (hheight : ∀ call ∈ calls, StandardHeight call)
    (hstays : ∀ call ∈ calls, StaysInBlock G header call)
    (hcomplete : (steps G calls (.reset header)).isBitmapComplete = true) :
    Agrees G header (steps G calls (.reset header)) :=
  (inv_reset.steps hheight hstays).agrees hG hz hcomplete

section SmallNet

open SmallNet

/-- A block of chunks without set bits. -/
def zeroBlock (chunkCount : UInt8) : BitmapSegmentBlock :=
  ⟨chunkCount, .setPositions, [], []⟩

/-- The bitmap segment of a header with one output. -/
def bitmapSegment : BitmapSegment :=
  ⟨⟨9, 0⟩, [zeroBlock 1], ⟨[]⟩⟩

/-- A header that commits to a bitmap of one chunk. -/
def bitmapHeader : BlockHeader :=
  { genesisHeader with
    outputRoot := hashParentWithIndex (smallNet .mainnet) Hash.zero
      (hashLeafWithIndex (smallNet .mainnet) (BitmapChunk.filled 0).bytes 0) 1 }

/-- The bitmap of one chunk is sent, and applied. -/
theorem bitmap_agrees_bitmapSegment :
    Agrees (smallNet .mainnet) bitmapHeader
      (steps (smallNet .mainnet)
        [.addBitmapSegment bitmapSegment Hash.zero, .applyNextBitmapSegment]
        (.reset bitmapHeader)) := by
  refine bitmap_agrees (injectiveWithIndex .mainnet) (nonzeroWithIndex .mainnet) ?_ ?_
    (by decide +kernel)
  · rintro call hcall
    rcases List.mem_cons.mp hcall with rfl | hcall
    · exact rfl
    · obtain rfl := List.mem_singleton.mp hcall
      trivial
  · rintro call hcall
    rcases List.mem_cons.mp hcall with rfl | hcall
    · rintro segment hsegment -
      cases hsegment
      decide +kernel
    · obtain rfl := List.mem_singleton.mp hcall
      trivial

/-! ### A surplus chunk -/

/-- Chunks without set bits. -/
def zeroChunks (n : ℕ) : List BitmapChunk :=
  List.replicate n (BitmapChunk.filled 0)

/-- A bitmap that needs a second segment, for one chunk. -/
def zeroBitmap : BitmapAccumulator :=
  (zeroChunks 513).foldl (BitmapAccumulator.appendChunk (smallNet .mainnet)) .empty

/-- A header that commits to it. -/
def surplusHeader : BlockHeader :=
  { genesisHeader with
    outputMMRSize := 1048576
    outputRoot := hashParentWithIndex (smallNet .mainnet) Hash.zero
      (zeroBitmap.root (smallNet .mainnet)) 1048576 }

theorem outputRoot_surplusHeader : surplusHeader.outputRoot =
    hashParentWithIndex (smallNet .mainnet) Hash.zero
      (zeroBitmap.root (smallNet .mainnet)) 1048576 := by
  rw [surplusHeader]

theorem getOutputMMRSize_surplusHeader : surplusHeader.getOutputMMRSize = 1048576 := by
  rw [BlockHeader.getOutputMMRSize, surplusHeader]
  rfl

/-- A chunk with one set bit. -/
def surplusChunk : BitmapChunk :=
  (BitmapChunk.filled 0).set 0 true

/-- The first segment of the bitmap, with a surplus chunk behind its block. -/
def surplusSegment : BitmapSegment where
  identifier := ⟨9, 0⟩
  blocks := [zeroBlock 255, zeroBlock 255, zeroBlock 2, ⟨1, .setPositions, [0], []⟩]
  proof := ⟨[hashLeafWithIndex (smallNet .mainnet) (BitmapChunk.filled 0).bytes 1023]⟩

/-- What it is decoded to. -/
def decodedSegment : Segment BitmapChunk where
  id := ⟨9, 0⟩
  hashPos := []
  hashes := []
  leafPos := (List.range 513).map leafPos
  leaves := zeroChunks 512 ++ [surplusChunk]
  proof := surplusSegment.proof

theorem toSegment_surplusSegment : surplusSegment.toSegment = .ok decodedSegment := by
  have hchunks : BitmapSegment.chunks surplusSegment.blocks =
      .ok (zeroChunks 512 ++ [surplusChunk]) := by
    decide +kernel
  have hpositions : (List.range 513).map (BitmapSegment.leafPositionAt ⟨9, 0⟩) =
      (List.range 513).map leafPos := by
    refine List.map_congr_left fun i hi => ?_
    have h1 := List.mem_range.mp hi
    have h2 := leafPos_le_two_mul i
    have h3 : SegmentIdentifier.getLeafOffset ⟨9, 0⟩ = 0 := by decide
    rw [BitmapSegment.leafPositionAt, leafPosition, h3, Nat.zero_add,
      Nat.mod_eq_of_lt (a := i) (by omega), Nat.mod_eq_of_lt (by omega)]
  have hlength : (zeroChunks 512 ++ [surplusChunk]).length = 513 := by
    rw [List.length_append, zeroChunks, List.length_replicate, List.length_singleton]
  rw [BitmapSegment.toSegment, hchunks, ok_bind, hlength]
  exact congrArg (fun positions => Except.ok
    (⟨⟨9, 0⟩, [], [], positions, zeroChunks 512 ++ [surplusChunk], surplusSegment.proof⟩ :
      Segment BitmapChunk)) hpositions

theorem length_zeroChunks (n : ℕ) : (zeroChunks n).length = n := by
  rw [zeroChunks, List.length_replicate]

theorem leafPos_decodedSegment : decodedSegment.leafPos = (List.range 513).map leafPos := by
  rw [decodedSegment]

theorem leaves_decodedSegment : decodedSegment.leaves = zeroChunks 512 ++ [surplusChunk] := by
  rw [decodedSegment]

theorem deserialized_decodedSegment : decodedSegment.Deserialized where
  hashPos_sorted := List.Pairwise.nil
  length_hashes := rfl
  leafPos_sorted := by
    rw [leafPos_decodedSegment]
    exact List.pairwise_map.mpr (List.pairwise_lt_range.imp fun hlt => leafPos_strictMono hlt)
  length_leaves := by
    rw [leafPos_decodedSegment, leaves_decodedSegment, List.length_map, List.length_range,
      List.length_append, length_zeroChunks, List.length_singleton]

theorem getLeafAt_decodedSegment {i : ℕ} (hi : i < 512) :
    decodedSegment.getLeafAt (leafPos i) = some (BitmapChunk.filled 0) := by
  refine deserialized_decodedSegment.getLeafAt_eq (List.mem_of_getElem?
    (List.getElem?_zip_eq_some.mpr ⟨(?_ : _[i]? = _), ?_⟩))
  · rw [leafPos_decodedSegment, List.getElem?_map, List.getElem?_range (by omega),
      Option.map_some]
  · rw [leaves_decodedSegment,
      List.getElem?_append_left (by rwa [length_zeroChunks]), zeroChunks,
      List.getElem?_replicate_of_lt hi]

/-- A bitmap of 513 chunks has the root of its first 512 chunks and of its last one. -/
theorem root_of_holds {b : BitmapAccumulator} (hb : b.Holds (smallNet .mainnet))
    (hlength : b.chunks.length = 513) :
    b.root (smallNet .mainnet) =
      hashParentWithIndex (smallNet .mainnet)
        (Merkle.root (combine (smallNet .mainnet)) (entryAt b.nodes) (completeTree 9 0))
        (entryAt b.nodes 1023) 1024 := by
  have hpeaks : rangePeaks 513 = [(9, 0), (0, 512)] := by decide +kernel
  have hsize : leafPos 513 = 1024 := by decide +kernel
  have hlast : nodePos 0 512 = 1023 := by decide +kernel
  have hlength' : (b.chunks.map CBigInteger.bytes).length = 513 := by
    rw [List.length_map, hlength]
  have hroot := root_eq_root_rangeTree (nonzeroWithIndex .mainnet) hb (by rw [hlength']; decide)
  rw [hlength', rangeTree, hpeaks] at hroot
  refine hb.root_eq (nonzeroWithIndex .mainnet) ?_
  have htree : bagTree (leafPos 513) (9, 0) [(0, 512)] =
      .node 1024 (completeTree 9 0) (.leaf 1023) := by
    rw [bagTree.eq_def, hsize, ← hlast]
    rfl
  rw [hlength, hroot]
  exact congrArg (fun t =>
    Except.ok (Merkle.root (combine (smallNet .mainnet)) (entryAt b.nodes) t)) htree

theorem holds_zeroBitmap : zeroBitmap.Holds (smallNet .mainnet) ∧
    zeroBitmap.chunks = zeroChunks 513 := by
  have h := (BitmapAccumulator.holds_empty (G := smallNet .mainnet)).foldl (zeroChunks 513)
  rwa [BitmapAccumulator.empty, List.nil_append] at h

/-- The entries of the bitmap at its leaves. -/
theorem entryAt_zeroBitmap {i : ℕ} (hi : i < 513) :
    entryAt zeroBitmap.nodes (leafPos i) =
      hashLeafWithIndex (smallNet .mainnet) (BitmapChunk.filled 0).bytes (leafPos i) := by
  obtain ⟨hholds, hchunks⟩ := holds_zeroBitmap
  have hleaf : (zeroBitmap.chunks.map CBigInteger.bytes)[i]? =
      some (BitmapChunk.filled 0).bytes := by
    rw [hchunks, List.getElem?_map, zeroChunks, List.getElem?_replicate_of_lt hi, Option.map_some]
  rw [entryAt, List.getD_eq_getElem?_getD, hholds.leaf i _ hleaf]
  rfl

/-- **The segment is accepted**: the surplus chunk is not looked at. -/
theorem accepted_decodedSegment :
    Accepted (smallNet .mainnet) surplusHeader decodedSegment Hash.zero := by
  have hsize : calculateBitmapMMRSize surplusHeader = leafPos 513 := by decide +kernel
  have hid : decodedSegment.id.Block 9 0 := ⟨by decide, by decide⟩
  have hcount : countLeaves (leafPos 513) = 513 := countLeaves_leafPos (by decide)
  have hfull : 2 ^ 9 * (0 + 1) ≤ countLeaves (leafPos 513) := by rw [hcount]; decide
  have hplace : ∀ place ∈ (completeTree 9 0).places, ∃ i, i < 512 ∧ place = leafPos i := by
    rintro place hplace
    rw [places_completeTree] at hplace
    obtain ⟨i, hi, rfl⟩ := List.mem_map.mp hplace
    have := List.mem_range'_1.mp hi
    exact ⟨i, by omega, rfl⟩
  have hsupplies : decodedSegment.Supplies (completeTree 9 0) := by
    rintro place hmem
    obtain ⟨i, hi, rfl⟩ := hplace place hmem
    exact ⟨_, getLeafAt_decodedSegment hi⟩
  -- On the leaves of its block the segment has the hashes of the bitmap.
  have hhash : Merkle.root (combine (smallNet .mainnet))
      (Segment.leafHash (smallNet .mainnet) CBigInteger.bytes decodedSegment)
        (completeTree 9 0) =
      Merkle.root (combine (smallNet .mainnet)) (entryAt zeroBitmap.nodes) (completeTree 9 0) := by
    refine Merkle.root_congr (combine (smallNet .mainnet)) fun place hmem => ?_
    obtain ⟨i, hi, rfl⟩ := hplace place hmem
    rw [Segment.leafHash_of_getLeafAt (getLeafAt_decodedSegment hi),
      entryAt_zeroBitmap (by omega)]
  have hroot : decodedSegment.root (smallNet .mainnet) CBigInteger.bytes (leafPos 513) none =
      some (Merkle.root (combine (smallNet .mainnet)) (entryAt zeroBitmap.nodes)
        (completeTree 9 0)) := by
    rw [Segment.root_full hid deserialized_decodedSegment hfull,
      Segment.subtreeHash_of_supplies hsupplies, hhash]
    rfl
  have hlast : entryAt zeroBitmap.nodes 1023 =
      hashLeafWithIndex (smallNet .mainnet) (BitmapChunk.filled 0).bytes 1023 := by
    have h512 : leafPos 512 = 1023 := by decide +kernel
    rw [← h512, entryAt_zeroBitmap (by decide)]
  have hsteps : SegmentProof.steps (leafPos 513) (leafPos (2 ^ 9 * 0)) (nodePos 9 0)
      (nodePos 9 0 + 1) = [⟨1024, false⟩] := by
    decide +kernel
  have hreconstruct : decodedSegment.proof.reconstructRoot (smallNet .mainnet) (leafPos 513)
      (leafPos (2 ^ 9 * 0)) (nodePos 9 0) (Merkle.root (combine (smallNet .mainnet))
        (entryAt zeroBitmap.nodes) (completeTree 9 0)) (nodePos 9 0 + 1) =
      some (zeroBitmap.root (smallNet .mainnet)) := by
    rw [SegmentProof.reconstructRoot_eq_some_iff, hsteps,
      root_of_holds holds_zeroBitmap.1 (by rw [holds_zeroBitmap.2, length_zeroChunks]), hlast]
    rfl
  rw [Accepted, hsize, Segment.validateWith, Segment.firstUnprunedParent, hroot]
  dsimp only
  rw [hid.getPositionRange_full hfull, SegmentProof.validateWith, hreconstruct]
  dsimp only
  rw [if_pos rfl, outputRoot_surplusHeader, getOutputMMRSize_surplusHeader, beq_self_eq_true]

/-- The bitmap with all chunks of the segment. -/
def surplusBitmap : BitmapAccumulator :=
  decodedSegment.leaves.foldl (BitmapAccumulator.appendChunk (smallNet .mainnet)) .empty

theorem holds_surplusBitmap : surplusBitmap.Holds (smallNet .mainnet) ∧
    surplusBitmap.chunks = zeroChunks 512 ++ [surplusChunk] := by
  have h := (BitmapAccumulator.holds_empty (G := smallNet .mainnet)).foldl decodedSegment.leaves
  rw [← surplusBitmap, leaves_decodedSegment] at h
  exact h

theorem length_surplusBitmap : surplusBitmap.chunks.length = 513 := by
  rw [holds_surplusBitmap.2, List.length_append, length_zeroChunks, List.length_singleton]

/-- The bitmap of the header and the one with the surplus chunk have different roots. -/
theorem root_surplusBitmap_ne :
    surplusBitmap.root (smallNet .mainnet) ≠ zeroBitmap.root (smallNet .mainnet) := by
  intro hroot
  obtain ⟨hzero, hzeros⟩ := holds_zeroBitmap
  obtain ⟨hsurplus, hchunks⟩ := holds_surplusBitmap
  have hlength : zeroBitmap.chunks.length = 513 := by rw [hzeros, length_zeroChunks]
  -- The last entries of the bitmaps are those of their last chunks.
  rw [root_of_holds hzero hlength, root_of_holds hsurplus length_surplusBitmap] at hroot
  have hlast := ((injectiveWithIndex .mainnet).parent _ _ _ _ _ _ hroot).2.2
  have h512 : leafPos 512 = 1023 := by decide +kernel
  have hleaf : (surplusBitmap.chunks.map CBigInteger.bytes)[512]? = some surplusChunk.bytes := by
    rw [hchunks, List.getElem?_map, List.getElem?_append_right (by rw [length_zeroChunks]),
      length_zeroChunks]
    rfl
  have hentry : entryAt surplusBitmap.nodes (leafPos 512) =
      hashLeafWithIndex (smallNet .mainnet) surplusChunk.bytes (leafPos 512) := by
    rw [entryAt, List.getD_eq_getElem?_getD, hsurplus.leaf 512 _ hleaf]
    rfl
  rw [← h512, hentry, entryAt_zeroBitmap (by decide)] at hlast
  have hbytes := ((injectiveWithIndex .mainnet).leaf _ _ _ _ hlast).2
  exact absurd hbytes (by decide +kernel)

/-- The segment is kept. -/
theorem addBitmapSegment_surplusSegment :
    step (smallNet .mainnet) (.addBitmapSegment surplusSegment Hash.zero) (.reset surplusHeader) =
      { TxHashSetDesegmenter.reset surplusHeader with bitmapSegments := [decodedSegment] } := by
  have haccepted := accepted_decodedSegment
  rw [Accepted] at haccepted
  have hreset : (TxHashSetDesegmenter.reset surplusHeader).bitmapMMRSize =
      calculateBitmapMMRSize surplusHeader := by rw [reset]
  have hheader : (TxHashSetDesegmenter.reset surplusHeader).archiveHeader = surplusHeader := by
    rw [reset]
  rw [step, addBitmapSegment, toSegment_surplusSegment, run_bind_ok (run_ofExcept (.ok _) _),
    if_neg (by decide), run_bind_ok (run_get _), hreset, hheader, if_neg (not_not.mpr haccepted)]
  rfl

/-- It is applied as it is. -/
theorem applyNextBitmapSegment_surplusSegment :
    step (smallNet .mainnet) .applyNextBitmapSegment
        { TxHashSetDesegmenter.reset surplusHeader with bitmapSegments := [decodedSegment] } =
      { TxHashSetDesegmenter.reset surplusHeader with
        bitmapAccumulator := surplusBitmap
        appliedBitmapMMRSize := surplusBitmap.getMMRSize
        bitmapSegments := []
        bitmapCacheComplete :=
          surplusBitmap.getMMRSize == calculateBitmapMMRSize surplusHeader } := by
  have hindex : decide (decodedSegment.id.index.toNat =
      nextRequiredSegmentIndex 0 PIBD.bitmapSegmentHeight) = true := by
    rw [decodedSegment]
    decide
  have hfind := List.find?_cons_of_pos (l := []) (p := fun segment : Segment BitmapChunk =>
    decide (segment.id.index.toNat = nextRequiredSegmentIndex 0 PIBD.bitmapSegmentHeight)) hindex
  have herase := List.eraseP_cons_of_pos (l := []) (p := fun segment : Segment BitmapChunk =>
    decide (segment.id.index.toNat = nextRequiredSegmentIndex 0 PIBD.bitmapSegmentHeight)) hindex
  rw [step, applyNextBitmapSegment_eq hfind, surplusBitmap, reset]
  dsimp only
  rw [herase]

/-- **A surplus chunk** is not looked at, but applied: the bitmap is complete, and not the one
that the header commits to. -/
theorem not_agrees_surplusSegment :
    (∀ call ∈ [.addBitmapSegment surplusSegment Hash.zero, .applyNextBitmapSegment],
      StandardHeight call) ∧
    (steps (smallNet .mainnet)
      [.addBitmapSegment surplusSegment Hash.zero, .applyNextBitmapSegment]
      (.reset surplusHeader)).isBitmapComplete = true ∧
    ¬Agrees (smallNet .mainnet) surplusHeader (steps (smallNet .mainnet)
      [.addBitmapSegment surplusSegment Hash.zero, .applyNextBitmapSegment]
      (.reset surplusHeader)) := by
  rw [steps, List.foldl_cons, List.foldl_cons, List.foldl_nil, addBitmapSegment_surplusSegment,
    applyNextBitmapSegment_surplusSegment]
  refine ⟨?_, ?_, ?_⟩
  · rintro call hcall
    rcases List.mem_cons.mp hcall with rfl | hcall
    · exact rfl
    · obtain rfl := List.mem_singleton.mp hcall
      trivial
  · rw [isBitmapComplete]
    dsimp only
    rw [holds_surplusBitmap.1.getMMRSize_eq, length_surplusBitmap]
    decide +kernel
  · rintro ⟨outputRoot, hagrees⟩
    rw [getBitmapAccumulator, outputRoot_surplusHeader, getOutputMMRSize_surplusHeader] at hagrees
    dsimp only at hagrees
    exact root_surplusBitmap_ne ((injectiveWithIndex .mainnet).parent _ _ _ _ _ _ hagrees).2.2

end SmallNet

end BitmapSync

end GrinPlusPlus
