import GrinPlusPlus.Pmmr.ApplySegment
import GrinPlusPlus.Pmmr.KernelSync

/-!
# A state goes from one node to another

The two halves of the download put together: `TxHashSetSegmenter` on the side that has a state,
`TxHashSetDesegmenter` and `PruneableMMR::ApplySegment` on the side that wants it. The sender may
have pruned its ranges in any way; all that is asked of it is that its files stand for some leaves
(`GrinPlusPlus.PruneableFiles.Mirrors`), which every run of its operations keeps.

The receiver never sees the leaves that were spent, and prunes more than the sender did. What the
download is for is that this makes no difference: **every segment is served and accepted**
(`GrinPlusPlus.TxHashSetDesegmenter.segments_accepted`), and after all of them the range has the
size and the root of the sender's, and gives back exactly the leaves that are unspent there
(`GrinPlusPlus.PruneableFiles.download_getAt`). The kernels are never pruned; they arrive as they
are, in whichever format the receiver stores them (`GrinPlusPlus.KernelStorage.download_stores`).
-/

namespace GrinPlusPlus

open PostOrder Mountain MMRHashUtil MMRUtil Merkle Compact Exec

/-! ### Files that segments can be made of -/

section Offers

variable {α : Type} {G : Global} {serialized : α → List UInt8} {f : PruneableFiles α}
  {leaves : List α} {full : List Hash} {unspent : ℕ → Bool}

/-- The readers of a pruned range. -/
theorem PruneableFiles.Mirrors.offers (hf : f.Mirrors G serialized leaves) (unspent : ℕ → Bool)
    (hfull : IsRangeOf G full (leaves.map serialized))
    (hunspent : ∀ i < leaves.length, unspent i = true →
      f.pruneList.isCompacted (leafPos i) = false) :
    (f.segmentReaders unspent).Offers G serialized f.pruneList full leaves where
  range := hfull
  apart := hf.apart
  roots_lt := hf.roots_lt
  leaf i := hf.getDataAt_eq i
  hash p hp := by
    have hlength : p < full.length := by rwa [hfull.length_eq, List.length_map]
    have hread := hf.getHashAt_eq hfull hlength
    rw [PruneableFiles.segmentReaders]
    dsimp only
    rw [hread, entryAt, List.getD_eq_getElem?_getD, List.getElem?_eq_getElem hlength]
    cases f.pruneList.isCompacted p with
    | true => rfl
    | false => rfl
  unspent := hunspent
  plain := nofun

/-- The readers of a kernel range. -/
theorem KernelFiles.RangeOf.offers {k : KernelFiles} {kernels : List TransactionKernel}
    (hk : k.RangeOf G kernels) :
    k.segmentReaders.Offers G TransactionKernel.serialize .empty k.hashFile kernels where
  range := hk.range
  apart := PruneList.apart_empty
  roots_lt := nofun
  leaf i := by
    rw [PruneList.empty_isCompacted, if_neg Bool.false_ne_true, ← hk.dataFile_eq]
    rfl
  hash p hp := by
    have hlength : p < k.hashFile.length := by rwa [hk.range.length_eq, List.length_map]
    rw [PruneList.empty_isCompacted, if_neg Bool.false_ne_true, entryAt,
      List.getD_eq_getElem?_getD, KernelFiles.segmentReaders]
    dsimp only
    rw [KernelFiles.getHashAt, getDataAt, List.getElem?_eq_getElem hlength]
    rfl
  unspent _ _ h := nomatch h
  plain _ := rfl

variable {α : Type} {G : Global} {serialized : α → List UInt8} {r : SegmentReaders α}
  {l : PruneList} {full : List Hash} {leaves : List α} {bitmap : Option BitmapAccumulator} {h : ℕ}
  {segments : List (Segment α)}

/-- The segments of one height that were built, in their order. -/
structure SegmentReaders.Built (G : Global) (r : SegmentReaders α) (mmrSize h : ℕ)
    (segments : List (Segment α)) : Prop where
  /-- Each of them was built. -/
  built : ∀ i s, segments[i]? = some s → ∃ id : SegmentIdentifier,
    id.height.toNat = h ∧ id.index.toNat = i ∧
      TxHashSetSegmenter.buildSegment G r mmrSize id = pure s
  /-- There are as many as the range needs. -/
  length_eq : segments.length = SegmentIdentifier.countSegmentsRequired mmrSize h

/-- A segment that was built is one that is served. -/
theorem SegmentReaders.Built.serves (hb : r.Built G (leafPos leaves.length) h segments)
    (ho : r.Offers G serialized l full leaves) (hm : r.Matches leaves.length bitmap)
    (hn : leaves.length < 2 ^ 63) (hh : 1 ≤ h) {i : ℕ} {s : Segment α}
    (hs : segments[i]? = some s) : 2 ^ h * i < leaves.length ∧
      ∃ id : SegmentIdentifier, id.Block h i ∧ r.Serves l full leaves id h i s := by
  obtain ⟨id, hheight, hindex, hbuild⟩ := hb.built i s hs
  have hlength := hb.length_eq
  rw [SegmentIdentifier.countSegmentsRequired, countLeaves_leafPos hn] at hlength
  have hfirst : 2 ^ h * i < leaves.length := by
    have hlt := (List.getElem?_eq_some_iff.1 hs).1
    have hle := Nat.mul_le_mul_left (2 ^ h) (Nat.succ_le_of_lt hlt)
    have hdiv := Nat.mul_div_le (leaves.length + 2 ^ h - 1) (2 ^ h)
    rw [← hlength] at hdiv
    rw [Nat.mul_succ] at hle
    have := Nat.two_pow_pos h
    omega
  have hid : id.Block h i := by
    rw [← hheight, ← hindex]
    refine SegmentIdentifier.block_of_lt ?_
    rw [hheight, hindex]
    omega
  obtain ⟨s', -, -, hbuild', hserves, -⟩ := ho.buildSegment_ok hm hn hid hh hfirst
  obtain rfl := Option.some.inj (Except.ok.inj (hbuild.symm.trans hbuild'))
  exact ⟨hfirst, id, hid, hserves⟩

/-- **All segments of a height are built.** -/
theorem SegmentReaders.Offers.exists_built (ho : r.Offers G serialized l full leaves)
    (hm : r.Matches leaves.length bitmap) (hn : leaves.length < 2 ^ 63) {height : UInt8}
    (hh : 1 ≤ height.toNat) :
    ∃ segments, r.Built G (leafPos leaves.length) height.toNat segments := by
  have hpow := Nat.two_pow_pos height.toNat
  have hserve : ∀ i : Fin ((leaves.length + 2 ^ height.toNat - 1) / 2 ^ height.toNat),
      (UInt64.ofNat i).toNat = i ∧ ∃ s,
        TxHashSetSegmenter.buildSegment G r (leafPos leaves.length) ⟨height, UInt64.ofNat i⟩ =
          pure s := by
    intro i
    have hfirst : 2 ^ height.toNat * i < leaves.length := by
      have hlt := i.isLt
      rw [Nat.lt_div_iff_mul_lt hpow, Nat.mul_comm] at hlt
      omega
    have hindex : (UInt64.ofNat i).toNat = i := by
      have hle := Nat.le_mul_of_pos_left i.val hpow
      rw [UInt64.toNat_ofNat']
      exact Nat.mod_eq_of_lt (by omega)
    have hid : SegmentIdentifier.Block ⟨height, UInt64.ofNat i⟩ height.toNat
        (UInt64.ofNat i).toNat := by
      refine SegmentIdentifier.block_of_lt ?_
      dsimp only
      rw [hindex]
      omega
    rw [hindex] at hid
    obtain ⟨s, -, -, hbuild, -⟩ := ho.buildSegment_ok hm hn hid hh hfirst
    exact ⟨hindex, s, hbuild⟩
  choose hindex segment hsegment using hserve
  refine ⟨List.ofFn segment, fun i s hs => ?_, ?_⟩
  · rw [List.getElem?_ofFn] at hs
    split at hs
    · next hi =>
      cases hs
      exact ⟨⟨height, UInt64.ofNat i⟩, rfl, hindex ⟨i, hi⟩, hsegment ⟨i, hi⟩⟩
    · cases hs
  · rw [List.length_ofFn, SegmentIdentifier.countSegmentsRequired, countLeaves_leafPos hn]

end Offers

/-- A range of three leaves whose first two were pruned. -/
theorem exists_mirrors_prunedPair {α : Type} (G : Global) (serialized : α → List UInt8)
    (x y z : α) : ∃ f : PruneableFiles α, f.Mirrors G serialized [x, y, z] ∧
      f.pruneList.prunedRoots = [2] ∧ ∀ i, f.leafSet i = (i == 2) := by
  have hempty : PruneableFiles.RangeOf G serialized ⟨[], fun _ => false, .empty, []⟩ [] :=
    ⟨isRange_nil, rfl, rfl, fun _ h => by cases h⟩
  have htree : treeRoot (nodeHash G) 1 (leafPos 0) ([x, y].map serialized) =
      some (hashParentWithIndex G (hashLeafWithIndex G (serialized x) 0)
        (hashLeafWithIndex G (serialized y) 1) 2) := rfl
  obtain ⟨f₁, -, hf₁, hleafSet, hroots⟩ :=
    hempty.mirrors.appendPrunedSubtree_ok le_rfl (Nat.mul_zero _).symm rfl htree
  obtain ⟨f, -, hf, hleafSet', hprune⟩ := hf₁.append_ok z
  refine ⟨f, hf, by rw [hprune, hroots]; rfl, fun i => ?_⟩
  rw [hleafSet', hleafSet, List.nil_append, List.length_cons, List.length_singleton]
  by_cases hi : i = 2
  · rw [hi]
    rfl
  · rw [beq_eq_false_iff_ne.2 hi]
    exact Function.update_of_ne hi _ _

/-- The bitmap of the third leaf. -/
def bitThree : BitmapAccumulator :=
  ⟨[(BitmapChunk.filled 0).set 2 true], []⟩

theorem contains_bitThree : ∀ i < 3, bitThree.contains i = (i == 2) := by
  decide

/-! ### Every segment is accepted -/

/-- **What a node with the state of a header has**: the three ranges, the first two pruned at will
but for the unspent leaves. -/
structure TxHashSet.Archives (G : Global) (t : TxHashSet) (bitmap : BitmapAccumulator)
    (header : BlockHeader) (outputs : List OutputIdentifier) (rangeProofs : List RangeProof)
    (kernels : List TransactionKernel) : Prop where
  /-- The range of the outputs. -/
  outputRange : t.outputPMMR.current.Mirrors G OutputIdentifier.serialize outputs
  /-- The range of the range proofs. -/
  rangeProofRange : t.rangeProofPMMR.current.Mirrors G RangeProof.serialize rangeProofs
  /-- The range of the kernels. -/
  kernelRange : t.kernelMMR.current.RangeOf G kernels
  /-- There is a range proof for each output … -/
  length_rangeProofs : rangeProofs.length = outputs.length
  /-- … and it is there while the output is unspent. -/
  unspent : ∀ i, t.outputPMMR.current.isUnpruned i = true →
    t.rangeProofPMMR.current.pruneList.isCompacted (leafPos i) = false
  /-- There is an output … -/
  outputs_pos : 0 < outputs.length
  /-- … and there are not too many to count them. -/
  outputs_lt : outputs.length < 2 ^ 63
  /-- There is a kernel … -/
  kernels_pos : 0 < kernels.length
  /-- … and there are not too many to count them. -/
  kernels_lt : kernels.length < 2 ^ 63
  /-- The header has the size of the outputs … -/
  outputMMRSize : header.getOutputMMRSize = leafPos outputs.length
  /-- … and of the kernels. -/
  kernelMMRSize : header.getKernelMMRSize = leafPos kernels.length
  /-- Its root of the outputs has the root of the bitmap in it. -/
  outputRoot : ∀ root, t.outputPMMR.current.root G (leafPos outputs.length) = .ok root →
    header.outputRoot =
      hashParentWithIndex G root (bitmap.root G) (leafPos outputs.length)
  /-- Its root of the range proofs. -/
  rangeProofRoot : t.rangeProofPMMR.current.root G (leafPos outputs.length) =
    .ok header.rangeProofRoot
  /-- Its root of the kernels. -/
  kernelRoot : t.kernelMMR.current.root G (leafPos kernels.length) = .ok header.kernelRoot
  /-- The bitmap has the unspent outputs. -/
  bits : ∀ i < outputs.length, bitmap.contains i = t.outputPMMR.current.isUnpruned i

section Root

variable {α : Type} {G : Global} {serialized : α → List UInt8} {f : PruneableFiles α}
  {leaves : List α} {full : List Hash}

/-- The root of a pruned range is the root of its hash tree. -/
theorem PruneableFiles.Mirrors.root_eq_rangeTree (hf : f.Mirrors G serialized leaves)
    (hz : G.NonzeroWithIndex) (hfull : IsRangeOf G full (leaves.map serialized))
    (hpos : 0 < leaves.length) :
    f.root G (leafPos leaves.length) =
      .ok (Merkle.root (combine G) (entryAt full) (rangeTree leaves.length)) := by
  have hroot := root_eq_root_rangeTree hz hfull (by rwa [List.length_map])
  rw [List.length_map] at hroot
  rw [hf.root_eq hfull fun r hr _ _ _ => hf.roots_lt r hr, hroot]

end Root

namespace TxHashSetDesegmenter

variable {G : Global} {d : TxHashSetDesegmenter}

/-- A segment is in the range. -/
def InRange (id : SegmentIdentifier) (numLeaves : ℕ) : Prop :=
  2 ^ id.height.toNat * id.index.toNat < numLeaves

theorem InRange.block {id : SegmentIdentifier} {n : ℕ} (h : InRange id n) (hn : n < 2 ^ 63) :
    id.Block id.height.toNat id.index.toNat :=
  SegmentIdentifier.block_of_lt (by
    rw [InRange] at h
    omega)

theorem one_le_height {type : SegmentType} {height : UInt8}
    (h : validateHeight type height = true) : 1 ≤ height.toNat := by
  rw [validateHeight, decide_eq_true_eq] at h
  cases type <;> simp only [PIBD.segmentMinHeight] at h <;> omega

/-- A segment that leads to the root passes the check of range proofs and kernels. -/
theorem validatesTo_of_eq {α : Type} {serialized : α → List UInt8} {segment : Segment α}
    {mmrSize unprunedPos : ℕ} {bitmap : Option BitmapAccumulator} {hash root : Hash}
    (hparent : segment.firstUnprunedParent G serialized mmrSize bitmap = some (hash, unprunedPos))
    (hroot : segment.proof.reconstructRoot G mmrSize (segment.id.getPositionRange mmrSize).1
      (segment.id.getPositionRange mmrSize).2 hash unprunedPos = some root) :
    validatesTo G serialized segment mmrSize bitmap root = true := by
  rw [validatesTo, hparent]
  dsimp only
  rw [hroot]
  exact beq_self_eq_true root

section Accepted

variable {t : TxHashSet} {outputs : List OutputIdentifier} {rangeProofs : List RangeProof}
  {kernels : List TransactionKernel} {id : SegmentIdentifier}

theorem outputSegment_accepted (hz : G.NonzeroWithIndex)
    (ht : t.Archives G d.bitmapAccumulator d.archiveHeader outputs rangeProofs kernels)
    (hcomplete : d.bitmapCacheComplete = true) (hheight : validateHeight .output id.height = true)
    (hin : InRange id outputs.length) :
    ∃ s, TxHashSetSegmenter.outputSegment G t id = pure s ∧ s.Deserialized ∧ s.id = id ∧
      run (addOutputSegment G s) d =
        (.ok true, { d with outputSegments := cacheSegment d.outputSegments s }) := by
  obtain ⟨full, hfull⟩ := exists_isRangeOf G (outputs.map OutputIdentifier.serialize)
  have hroot := ht.outputRange.root_eq_rangeTree hz hfull ht.outputs_pos
  have ho := ht.outputRange.offers t.outputPMMR.current.isUnpruned hfull
    fun i hi hunspent => ht.outputRange.unspent i (by
      rw [PruneableFiles.isUnpruned, Bool.and_eq_true] at hunspent
      exact hunspent.2)
  obtain ⟨s, hash, unprunedPos, hbuild, hserves, rfl, hparent, hreconstruct⟩ :=
    ho.buildSegment_ok (.pruned rfl ht.bits) ht.outputs_lt (hin.block ht.outputs_lt)
      (one_le_height hheight) hin
  refine ⟨s, ?_, hserves.deserialized, rfl, ?_⟩
  · rw [TxHashSetSegmenter.outputSegment, ht.outputRange.getSize_eq]
    exact hbuild
  · have hvalid : s.proof.validateWith G (leafPos outputs.length)
        (s.id.getPositionRange (leafPos outputs.length)).1
        (s.id.getPositionRange (leafPos outputs.length)).2 hash unprunedPos
        (leafPos outputs.length) (d.bitmapAccumulator.root G) false d.archiveHeader.outputRoot =
          true := by
      rw [SegmentProof.validateWith, hreconstruct, ht.outputRoot _ hroot]
      exact beq_self_eq_true _
    rw [addOutputSegment, run_bind_ok (run_get d), if_neg (not_not.2 hheight),
      if_neg (not_not.2 hcomplete), ht.outputMMRSize, hparent]
    dsimp only
    rw [if_neg (not_not.2 hvalid)]
    rfl

theorem rangeProofSegment_accepted (hz : G.NonzeroWithIndex)
    (ht : t.Archives G d.bitmapAccumulator d.archiveHeader outputs rangeProofs kernels)
    (hcomplete : d.bitmapCacheComplete = true)
    (hheight : validateHeight .rangeProof id.height = true) (hin : InRange id outputs.length) :
    ∃ s, TxHashSetSegmenter.rangeProofSegment G t id = pure s ∧ s.Deserialized ∧ s.id = id ∧
      run (addRangeProofSegment G s) d =
        (.ok true, { d with rangeProofSegments := cacheSegment d.rangeProofSegments s }) := by
  obtain ⟨full, hfull⟩ := exists_isRangeOf G (rangeProofs.map RangeProof.serialize)
  have hlength := ht.length_rangeProofs
  have hroot := ht.rangeProofRange.root_eq_rangeTree hz hfull (hlength.symm ▸ ht.outputs_pos)
  rw [hlength, ht.rangeProofRoot] at hroot
  have ho := ht.rangeProofRange.offers t.outputPMMR.current.isUnpruned hfull
    fun i _ hunspent => ht.unspent i hunspent
  obtain ⟨s, hash, unprunedPos, hbuild, hserves, rfl, hparent, hreconstruct⟩ :=
    ho.buildSegment_ok (.pruned rfl (hlength.symm ▸ ht.bits)) (hlength.symm ▸ ht.outputs_lt)
      (hin.block ht.outputs_lt) (one_le_height hheight) (hlength.symm ▸ hin)
  rw [hlength] at hbuild hparent hreconstruct
  refine ⟨s, ?_, hserves.deserialized, rfl, ?_⟩
  · rw [TxHashSetSegmenter.rangeProofSegment, ht.rangeProofRange.getSize_eq, hlength]
    exact hbuild
  · have hvalid := validatesTo_of_eq hparent hreconstruct
    rw [← Except.ok.inj hroot, ← ht.outputMMRSize] at hvalid
    rw [addRangeProofSegment, run_bind_ok (run_get d), if_neg (not_not.2 hheight),
      if_neg (not_not.2 hcomplete), if_neg (not_not.2 hvalid)]
    rfl

theorem kernelSegment_accepted (hz : G.NonzeroWithIndex)
    (ht : t.Archives G d.bitmapAccumulator d.archiveHeader outputs rangeProofs kernels)
    (hheight : validateHeight .kernel id.height = true) (hin : InRange id kernels.length) :
    ∃ s, TxHashSetSegmenter.kernelSegment G t id = pure s ∧ s.Deserialized ∧ s.id = id ∧
      run (addKernelSegment G s) d =
        (.ok true, { d with kernelSegments := cacheSegment d.kernelSegments s }) := by
  have hroot := root_eq_root_rangeTree hz ht.kernelRange.range (by
    rw [List.length_map]
    exact ht.kernels_pos)
  rw [List.length_map] at hroot
  have hkernels := ht.kernelRoot
  rw [KernelFiles.root, hroot] at hkernels
  obtain ⟨s, hash, unprunedPos, hbuild, hserves, rfl, hparent, hreconstruct⟩ :=
    ht.kernelRange.offers.buildSegment_ok (.plain rfl) ht.kernels_lt (hin.block ht.kernels_lt)
      (one_le_height hheight) hin
  refine ⟨s, ?_, hserves.deserialized, rfl, ?_⟩
  · rw [TxHashSetSegmenter.kernelSegment, KernelFiles.getSize, ht.kernelRange.range.length_eq,
      List.length_map]
    exact hbuild
  · have hvalid := validatesTo_of_eq hparent hreconstruct
    rw [Except.ok.inj hkernels, ← ht.kernelMMRSize] at hvalid
    rw [addKernelSegment, run_bind_ok (run_get d), if_neg (not_not.2 hheight),
      if_neg (not_not.2 hvalid)]
    rfl

end Accepted

/-- **Every segment of a state is served and accepted**, whatever the heights that are asked for
and whatever was pruned. -/
theorem segments_accepted (hz : G.NonzeroWithIndex) {t : TxHashSet}
    {outputs : List OutputIdentifier} {rangeProofs : List RangeProof}
    {kernels : List TransactionKernel}
    (ht : t.Archives G d.bitmapAccumulator d.archiveHeader outputs rangeProofs kernels)
    (hcomplete : d.bitmapCacheComplete = true) (id : SegmentIdentifier) :
    (validateHeight .output id.height = true → InRange id outputs.length →
      ∃ s, TxHashSetSegmenter.outputSegment G t id = pure s ∧ s.Deserialized ∧ s.id = id ∧
        run (addOutputSegment G s) d =
          (.ok true, { d with outputSegments := cacheSegment d.outputSegments s })) ∧
    (validateHeight .rangeProof id.height = true → InRange id outputs.length →
      ∃ s, TxHashSetSegmenter.rangeProofSegment G t id = pure s ∧ s.Deserialized ∧ s.id = id ∧
        run (addRangeProofSegment G s) d =
          (.ok true, { d with rangeProofSegments := cacheSegment d.rangeProofSegments s })) ∧
    (validateHeight .kernel id.height = true → InRange id kernels.length →
      ∃ s, TxHashSetSegmenter.kernelSegment G t id = pure s ∧ s.Deserialized ∧ s.id = id ∧
        run (addKernelSegment G s) d =
          (.ok true, { d with kernelSegments := cacheSegment d.kernelSegments s })) :=
  ⟨outputSegment_accepted hz ht hcomplete, rangeProofSegment_accepted hz ht hcomplete,
    kernelSegment_accepted hz ht⟩

open SmallNet in
/-- Three outputs, two of which are spent and pruned. -/
theorem segments_accepted_prunedPair : ∃ (t : TxHashSet) (d : TxHashSetDesegmenter),
    t.outputPMMR.current.pruneList.prunedRoots = [2] ∧
      t.rangeProofPMMR.current.pruneList.prunedRoots = [2] ∧
      ∃ s, TxHashSetSegmenter.outputSegment (smallNet .mainnet) t ⟨11, 0⟩ = pure s ∧
        s.Deserialized ∧ s.id = ⟨11, 0⟩ ∧ run (addOutputSegment (smallNet .mainnet) s) d =
          (.ok true, { d with outputSegments := cacheSegment d.outputSegments s }) := by
  obtain ⟨f, hf, hroots, hunspent⟩ :=
    exists_mirrors_prunedPair (smallNet .mainnet) OutputIdentifier.serialize
      (.fromOutput (coinbaseOutput 0)) (.fromOutput (coinbaseOutput 1))
      (.fromOutput (coinbaseOutput 2))
  obtain ⟨f', hf', hroots', hunspent'⟩ :=
    exists_mirrors_prunedPair (smallNet .mainnet) RangeProof.serialize rangeProof rangeProof
      rangeProof
  have hempty : KernelFiles.RangeOf (smallNet .mainnet) ⟨[], []⟩ [] := ⟨isRange_nil, rfl⟩
  obtain ⟨k, -, hk⟩ := hempty.applyKernel_ok (coinbaseKernel 0)
  obtain ⟨full, hfull⟩ := exists_isRangeOf (smallNet .mainnet)
    (([coinbaseOutput 0, coinbaseOutput 1, coinbaseOutput 2].map
      OutputIdentifier.fromOutput).map OutputIdentifier.serialize)
  obtain ⟨full', hfull'⟩ := exists_isRangeOf (smallNet .mainnet)
    ([rangeProof, rangeProof, rangeProof].map RangeProof.serialize)
  have hz := nonzeroWithIndex .mainnet
  have hroot := hf.root_eq_rangeTree hz hfull (by decide)
  have hroot' := hf'.root_eq_rangeTree hz hfull' (by decide)
  obtain ⟨root, hkernelRoot⟩ := root_ok hk.range
  let header : BlockHeader := { genesisHeader with
    outputRoot := hashParentWithIndex (smallNet .mainnet)
      (Merkle.root (combine (smallNet .mainnet)) (entryAt full) (rangeTree 3))
      (bitThree.root (smallNet .mainnet)) (leafPos 3)
    rangeProofRoot := Merkle.root (combine (smallNet .mainnet)) (entryAt full') (rangeTree 3)
    kernelRoot := root
    outputMMRSize := 4 }
  let t : TxHashSet := ⟨.of k, .of f, .of f', header, header⟩
  let d : TxHashSetDesegmenter :=
    { TxHashSetDesegmenter.reset header with
      bitmapAccumulator := bitThree
      bitmapCacheComplete := true }
  have hisUnpruned : ∀ i, f.isUnpruned i = (i == 2) := by
    intro i
    rw [PruneableFiles.isUnpruned, hunspent]
    by_cases hi : i = 2
    · rw [hi, hf.getSize_eq]
      rfl
    · rw [beq_eq_false_iff_ne.2 hi, Bool.and_false]
  have harchives : t.Archives (smallNet .mainnet) d.bitmapAccumulator d.archiveHeader
      [.fromOutput (coinbaseOutput 0), .fromOutput (coinbaseOutput 1),
        .fromOutput (coinbaseOutput 2)] [rangeProof, rangeProof, rangeProof]
      ([] ++ [coinbaseKernel 0]) :=
    { outputRange := hf
      rangeProofRange := hf'
      kernelRange := hk
      length_rangeProofs := rfl
      unspent := fun i hi => hf'.unspent i ((hunspent' i).trans ((hisUnpruned i).symm.trans hi))
      outputs_pos := by decide
      outputs_lt := by decide
      kernels_pos := by decide
      kernels_lt := by decide
      outputMMRSize := rfl
      kernelMMRSize := rfl
      outputRoot := by
        intro root hr
        rw [← Except.ok.inj (hroot.symm.trans hr)]
        rfl
      rangeProofRoot := hroot'
      kernelRoot := hkernelRoot
      bits := by
        intro i hi
        exact (contains_bitThree i hi).trans (hisUnpruned i).symm }
  exact ⟨t, d, hroots, hroots', (segments_accepted hz harchives rfl ⟨11, 0⟩).1 (by decide)
    (show 2 ^ 11 * 0 < 3 by decide)⟩

end TxHashSetDesegmenter

/-! ### The download -/

namespace PruneableFiles

variable {α : Type} {G : Global} {serialized : α → List UInt8} {bits : BitmapAccumulator}
  {f g : PruneableFiles α} {leaves : List α} {unspent : ℕ → Bool} {h : ℕ}

/-- Where a download starts. -/
theorem before_zero {m : ℕ} (hm : m ≤ 1) (hpos : 0 < leaves.length)
    (hg : g.RangeOf G serialized (leaves.take m)) (l : PruneList) :
    Before G serialized bits leaves l h 0 g := by
  have hunspent : ∀ i < m, bits.contains i = true →
      g.pruneList.isCompacted (leafPos i) = false := by
    intro i _ _
    rw [hg.pruneList_eq, PruneList.empty_isCompacted]
  have hdownloaded : Downloaded G serialized bits leaves g m :=
    ⟨hg.mirrors, by omega, hunspent⟩
  refine .front ?_ fun k a _ hlt => by omega
  rcases Nat.le_one_iff_eq_zero_or_eq_one.1 hm with rfl | rfl
  · exact .inl (by rwa [Nat.mul_zero])
  · exact .inr ⟨Nat.mul_zero _, hg.pruneList_eq, hdownloaded⟩

/-- **A download gives the unspent leaves of the sender**, and its size and root: the segments that
it built are applied in their order, from a range that is new, and then the bitmap is. -/
theorem download_getAt (hf : f.Mirrors G serialized leaves) (hpos : 0 < leaves.length)
    (hn : leaves.length < 2 ^ 63)
    (hunspent : ∀ i < leaves.length, unspent i = true →
      f.pruneList.isCompacted (leafPos i) = false)
    (hbits : ∀ i < leaves.length, bits.contains i = unspent i) (hh : 1 ≤ h)
    {segments : List (Segment α)}
    (hsegments : (f.segmentReaders unspent).Built G f.getSize h segments)
    {m : ℕ} (hm : m ≤ 1) (hg : g.RangeOf G serialized (leaves.take m)) :
    ∃ g', applySegments G serialized (some bits) f.getSize segments g = .ok (true, g') ∧
      g'.getSize = f.getSize ∧ g'.root G f.getSize = f.root G f.getSize ∧
      ∀ i, (g'.updateLeafSet bits leaves.length).getAt i =
        if unspent i then f.getDataAt i else none := by
  obtain ⟨full, hfull⟩ := exists_isRangeOf G (leaves.map serialized)
  have ho := hf.offers unspent hfull hunspent
  have hmatches : (f.segmentReaders unspent).Matches leaves.length (some bits) := .pruned rfl hbits
  rw [hf.getSize_eq] at hsegments ⊢
  have hserved : ServedFrom (f.segmentReaders unspent) f.pruneList full leaves h 0 segments := by
    intro i s hs
    rw [Nat.zero_add]
    exact (hsegments.serves ho hmatches hn hh hs).2
  have hcount := hsegments.length_eq
  rw [SegmentIdentifier.countSegmentsRequired, countLeaves_leafPos hn] at hcount
  obtain ⟨g', happly, hg'⟩ := (before_zero hm hpos hg f.pruneList).applySegments ho hmatches hn hpos
    hh hserved (by rw [Nat.zero_add, hcount])
  have hmirrors := hg'.mirrors
  rw [List.take_length] at hmirrors
  refine ⟨g', happly, hmirrors.getSize_eq, ?_, fun i => ?_⟩
  · rw [hmirrors.root_eq hfull fun r hr _ _ _ => hmirrors.roots_lt r hr,
      hf.root_eq hfull fun r hr _ _ _ => hf.roots_lt r hr]
  · have hupdated : (g'.updateLeafSet bits leaves.length).Mirrors G serialized leaves := by
      refine ⟨hmirrors.apart, hmirrors.roots_lt, hmirrors.hashFile, hmirrors.dataFile,
        fun j hj => ?_, fun j hj => ?_⟩
      · rw [leafSet_updateLeafSet, Bool.and_eq_true, decide_eq_true_eq] at hj
        exact hj.1
      · rw [leafSet_updateLeafSet, Bool.and_eq_true, decide_eq_true_eq] at hj
        exact hg'.unspent j hj.1 hj.2
    rw [hupdated.getAt_eq, leafSet_updateLeafSet, hf.getDataAt_eq]
    rcases Nat.lt_or_ge i leaves.length with hi | hi
    · rw [decide_eq_true hi, Bool.true_and, hbits i hi]
      cases hu : unspent i with
      | false => rfl
      | true =>
        rw [hunspent i hi hu]
        rfl
    · rw [decide_eq_false (Nat.not_lt_of_le hi), Bool.false_and, List.getElem?_eq_none hi,
        if_neg Bool.false_ne_true, ite_self, ite_self]

/-- Two leaves were pruned before the download, the last one is unspent. -/
theorem download_getAt_prunedPair : ∃ (f g' : PruneableFiles (List UInt8))
    (bits : BitmapAccumulator) (segments : List (Segment (List UInt8))),
      f.pruneList.prunedRoots = [2] ∧ segments.length = 2 ∧
      applySegments (smallNet .mainnet) id (some bits) f.getSize segments
        ⟨[], fun _ => false, .empty, []⟩ = .ok (true, g') ∧
      g'.getSize = f.getSize ∧ g'.root (smallNet .mainnet) f.getSize =
        f.root (smallNet .mainnet) f.getSize ∧
      ∀ i, (g'.updateLeafSet bits 3).getAt i = if i == 2 then f.getDataAt i else none := by
  obtain ⟨f, hf, hroots, hunspent⟩ :=
    exists_mirrors_prunedPair (smallNet .mainnet) id ([1] : List UInt8) [2] [3]
  have hkept : ∀ i < 3, (i == 2) = true → f.pruneList.isCompacted (leafPos i) = false :=
    fun i _ hi => hf.unspent i (by rwa [hunspent])
  obtain ⟨full, hfull⟩ := exists_isRangeOf (smallNet .mainnet) ([[1], [2], [3]].map id)
  obtain ⟨segments, hsegments⟩ := (hf.offers _ hfull hkept).exists_built
    (.pruned rfl contains_bitThree) (by decide) (show 1 ≤ UInt8.toNat 1 by decide)
  rw [← hf.getSize_eq] at hsegments
  have hempty : PruneableFiles.RangeOf (smallNet .mainnet) id ⟨[], fun _ => false, .empty, []⟩
      (List.take 0 ([[1], [2], [3]] : List (List UInt8))) :=
    ⟨isRange_nil, rfl, rfl, fun _ h => by cases h⟩
  have htwo : segments.length = 2 := by
    rw [hsegments.length_eq, hf.getSize_eq, SegmentIdentifier.countSegmentsRequired,
      countLeaves_leafPos (by decide)]
    rfl
  obtain ⟨g', hg'⟩ := download_getAt hf (by decide) (by decide) hkept contains_bitThree le_rfl
    hsegments (Nat.zero_le 1) hempty
  exact ⟨f, g', bitThree, segments, hroots, htwo, hg'⟩

end PruneableFiles

/-! ### The download of the kernels -/

namespace KernelStorage

variable {G : Global} {kernels committed : List TransactionKernel} {s : KernelStorage}
  {a b e h m : ℕ}

/-- Segments are applied one after the other, up to the first that does not fit. -/
def applySegments (G : Global) : List (Segment TransactionKernel) → Exec Exc KernelStorage Bool
  | [] => pure true
  | segment :: segments => do
    if ← applySegment G segment then applySegments G segments else pure false

/-- A stretch of positions that begins with a leaf. -/
theorem tabulate_sentLeaf_cons {kernel : TransactionKernel} (ha : kernels[a]? = some kernel)
    (he : leafPos a < e) :
    tabulate (sentLeaf .empty kernels) (List.range' (leafPos a) (e - leafPos a)) =
      (leafPos a, kernel) ::
        tabulate (sentLeaf .empty kernels)
          (List.range' (leafPos (a + 1)) (e - leafPos (a + 1))) := by
  have hleaf : sentLeaf .empty kernels (leafPos a) = some kernel := by
    rw [sentLeaf, if_pos ⟨height_leafPos a, PruneList.empty_isCompacted _⟩,
      calculateLeafIndex_leafPos, ha]
  have hlt := leafPos_lt_succ a
  -- the positions up to the next leaf are parents
  have hparents : ∀ p, leafPos a + 1 ≤ p → p < leafPos a + 1 + (leafPos (a + 1) - leafPos a - 1) →
      sentLeaf .empty kernels p = none := by
    intro p h1 h2
    rw [sentLeaf, if_neg]
    rintro ⟨hzero, -⟩
    obtain ⟨i, hi⟩ := exists_nodePos p
    rw [hzero, nodePos_zero] at hi
    have hai : a < i := leafPos_strictMono.lt_iff_lt.1 (by omega)
    have hia : i < a + 1 := leafPos_strictMono.lt_iff_lt.1 (by omega)
    omega
  obtain ⟨n, hn⟩ := Nat.exists_eq_add_of_lt he
  rw [show e - leafPos a = n + 1 by omega, List.range'_succ, tabulate_cons, hleaf, Option.map_some,
    Option.toList_some, List.singleton_append, tabulate_range'_add hparents]
  congr 3 <;> omega

/-- **The leaves of a segment are applied**: those that are there already are passed over. -/
theorem Stores.applyLeaves_offered (hab : a ≤ b) (hb : b ≤ kernels.length)
    (he : ∀ i, leafPos i < e ↔ i < b) (ham : a ≤ m) (hm : m ≤ kernels.length)
    (hs : Stores G s (kernels.take m) committed) :
    ∃ s', run (applyLeaves G m
        (tabulate (sentLeaf .empty kernels) (List.range' (leafPos a) (e - leafPos a)))) s =
          (.ok true, s') ∧
      s'.storageFormat = s.storageFormat ∧ Stores G s' (kernels.take (max m b)) committed := by
  induction hab using Nat.decreasingInduction generalizing m s with
  | self =>
    have hnil : e - leafPos b = 0 := by
      have := (he b).not.2 (lt_irrefl b)
      omega
    rw [hnil, max_eq_left ham]
    exact ⟨s, rfl, rfl, hs⟩
  | of_succ a hlt ih =>
    have ha : kernels[a]? = some kernels[a] := List.getElem?_eq_getElem (hlt.trans_le hb)
    rw [tabulate_sentLeaf_cons ha ((he a).2 hlt), applyLeaves]
    rcases Nat.lt_or_ge a m with hlt' | hge
    · rw [leafPosition, if_pos (leafPos_strictMono hlt')]
      exact ih hlt' hm hs
    · obtain rfl : a = m := le_antisymm ham hge
      obtain ⟨s₁, hrun, hformat, hs₁⟩ := hs.run_applyKernel kernels[a]
      rw [← List.take_succ_eq_append_getElem (hlt.trans_le hb)] at hs₁
      obtain ⟨s', hrun', hformat', hs'⟩ := ih le_rfl (hlt.trans_le hb) hs₁
      rw [leafPosition, if_neg (lt_irrefl _), if_neg (not_not.2 rfl), run_bind_ok hrun]
      rw [max_eq_right hlt] at hs'
      rw [max_eq_right hlt.le]
      exact ⟨s', hrun', hformat'.trans hformat, hs'⟩

variable {k : KernelFiles} {full : List Hash} {id : SegmentIdentifier}
  {segment : Segment TransactionKernel} {segments : List (Segment TransactionKernel)} {i : ℕ}

/-- **A segment is applied.** -/
theorem Stores.applySegment_served (hn : kernels.length < 2 ^ 63) (hid : id.Block h i)
    (hfirst : 2 ^ h * i < kernels.length)
    (hserves : k.segmentReaders.Serves .empty full kernels id h i segment)
    (ham : 2 ^ h * i ≤ m) (hm : m ≤ kernels.length)
    (hs : Stores G s (kernels.take m) committed) :
    ∃ s', run (applySegment G segment) s = (.ok true, s') ∧
      s'.storageFormat = s.storageFormat ∧
      Stores G s' (kernels.take (max m (min (2 ^ h * (i + 1)) kernels.length))) committed := by
  have hcount := countLeaves_leafPos hn
  have hnum : s.getNumKernels = m := by
    rw [hs.getNumKernels_eq, List.length_take, min_eq_left hm]
  have hle : 2 ^ h * i ≤ 2 ^ h * (i + 1) := Nat.mul_le_mul_left _ (Nat.le_succ i)
  cases hserves with
  | root proof hk hroot => cases hroot
  | nodes proof hthere =>
    have hnohash : tabulate (sentHash k.segmentReaders.prunable .empty full)
        (SegmentReaders.positions id (leafPos kernels.length)) = [] :=
      List.filterMap_eq_nil_iff.2 fun p _ => by rw [sentHash, if_pos (.inl rfl), Option.map_none]
    rw [applySegment, SegmentReaders.offered, hnohash, SegmentParts.toSegment]
    dsimp only
    rw [List.map_nil, List.isEmpty_nil, if_neg (not_not.2 rfl), List.length_map, List.length_map,
      if_neg (not_not.2 rfl), run_bind_ok (run_get s), hnum, List.zip_map',
      List.map_id'' fun _ => rfl]
    rcases Nat.lt_or_ge kernels.length (2 ^ h * (i + 1)) with hlast | hblock
    · -- the segment ends with the range
      have hpositions : SegmentReaders.positions id (leafPos kernels.length) =
          List.range' (leafPos (2 ^ h * i)) (leafPos kernels.length - leafPos (2 ^ h * i)) := by
        have hlt := leafPos_strictMono hfirst
        rw [SegmentReaders.positions,
          hid.getPositionRange_last (hcount.symm ▸ hfirst) (hcount.symm ▸ hlast)]
        congr 1
        omega
      rw [hpositions, min_eq_right hlast.le]
      exact hs.applyLeaves_offered hfirst.le le_rfl (fun j => leafPos_strictMono.lt_iff_lt) ham hm
    · -- the segment ends with the root of its tree
      have hpositions : SegmentReaders.positions id (leafPos kernels.length) =
          List.range' (leafPos (2 ^ h * i)) (nodePos h i + 1 - leafPos (2 ^ h * i)) := by
        have hroot := nodePos_eq_leafPos_add h i
        rw [SegmentReaders.positions, hid.getPositionRange_full (hcount.symm ▸ hblock)]
        congr 1
        omega
      rw [hpositions, min_eq_left hblock]
      exact hs.applyLeaves_offered hle hblock
        (fun j => Nat.lt_succ_iff.trans leafPos_le_nodePos_iff) ham hm

/-- **All segments are applied**, one after the other. -/
theorem Stores.applySegments_served (hn : kernels.length < 2 ^ 63) (hm : m ≤ kernels.length)
    (hserved : ∀ j segment, segments[j]? = some segment → 2 ^ h * (i + j) < kernels.length ∧
      ∃ id : SegmentIdentifier, id.Block h (i + j) ∧
        k.segmentReaders.Serves .empty full kernels id h (i + j) segment)
    (him : min (2 ^ h * i) kernels.length ≤ m)
    (hs : Stores G s (kernels.take m) committed) :
    ∃ s' m', run (applySegments G segments) s = (.ok true, s') ∧
      s'.storageFormat = s.storageFormat ∧ m' ≤ kernels.length ∧
      min (2 ^ h * (i + segments.length)) kernels.length ≤ m' ∧
      Stores G s' (kernels.take m') committed := by
  induction segments generalizing i m s with
  | nil => exact ⟨s, m, rfl, rfl, hm, him, hs⟩
  | cons segment segments ih =>
    obtain ⟨hfirst, id, hid, hserves⟩ := hserved 0 segment rfl
    rw [Nat.add_zero] at hfirst hid hserves
    rw [min_eq_left hfirst.le] at him
    obtain ⟨s₁, hrun, hformat, hs₁⟩ := hs.applySegment_served hn hid hfirst hserves him hm
    obtain ⟨s', m', hrun', hformat', hm', hle, hs'⟩ := ih (max_le hm (min_le_right _ _))
      (fun j t ht => by
        have := hserved (j + 1) t ht
        rwa [← Nat.add_assoc, Nat.add_right_comm] at this) (le_max_right _ _) hs₁
    refine ⟨s', m', ?_, hformat'.trans hformat, hm', ?_, hs'⟩
    · rw [applySegments, run_bind_ok hrun, if_pos rfl]
      exact hrun'
    · rwa [List.length_cons, Nat.add_comm segments.length, ← Nat.add_assoc]

/-- **A download gives the kernels of the sender**, in either format of the storage: the segments
that it built are applied in their order, to the first kernels of it or to none. -/
theorem download_stores (hk : k.RangeOf G kernels) (hn : kernels.length < 2 ^ 63) (hh : 1 ≤ h)
    (hsegments : k.segmentReaders.Built G k.getSize h segments)
    (hm : m ≤ kernels.length) (hs : Stores G s (kernels.take m) committed) :
    ∃ s', run (applySegments G segments) s = (.ok true, s') ∧
      s'.storageFormat = s.storageFormat ∧ Stores G s' kernels committed ∧
      s'.getNumKernels = kernels.length ∧ s'.root G k.getSize = k.root G k.getSize := by
  have hsize : k.getSize = leafPos kernels.length := by
    rw [KernelFiles.getSize, hk.range.length_eq, List.length_map]
  have hpow := Nat.two_pow_pos h
  rw [hsize] at hsegments
  have hserved : ∀ j segment, segments[j]? = some segment → 2 ^ h * (0 + j) < kernels.length ∧
      ∃ id : SegmentIdentifier, id.Block h (0 + j) ∧
        k.segmentReaders.Serves .empty k.hashFile kernels id h (0 + j) segment := by
    intro j segment hj
    rw [Nat.zero_add]
    exact hsegments.serves hk.offers (.plain rfl) hn hh hj
  have hcount := hsegments.length_eq
  rw [SegmentIdentifier.countSegmentsRequired, countLeaves_leafPos hn] at hcount
  obtain ⟨s', m', hrun, hformat, hm', hle, hs'⟩ := hs.applySegments_served hn hm hserved
    (by rw [Nat.mul_zero]; exact (min_le_left _ _).trans (Nat.zero_le m))
  have hall : kernels.length ≤ 2 ^ h * segments.length := by
    have hmod := Nat.div_add_mod (kernels.length + 2 ^ h - 1) (2 ^ h)
    have := Nat.mod_lt (kernels.length + 2 ^ h - 1) hpow
    rw [← hcount] at hmod
    omega
  rw [Nat.zero_add, min_eq_right hall] at hle
  obtain rfl := le_antisymm hm' hle
  rw [List.take_length] at hs'
  refine ⟨s', hrun, hformat, hs', hs'.getNumKernels_eq, ?_⟩
  rw [KernelStorage.root, KernelFiles.root, hs'.range.unique hk.range]

open SmallNet in
/-- Three kernels, and a storage of the variable format that has the first of them. -/
theorem download_stores_threeKernels : ∃ (k : KernelFiles) (s s' : KernelStorage)
    (segments : List (Segment TransactionKernel)),
      s.storageFormat = .variable ∧ s.getNumKernels = 1 ∧
      k.segmentReaders.Built (smallNet .mainnet) k.getSize 1 segments ∧
      run (applySegments (smallNet .mainnet) segments) s = (.ok true, s') ∧
      s'.storageFormat = s.storageFormat ∧
      Stores (smallNet .mainnet) s' [coinbaseKernel 0, coinbaseKernel 1, coinbaseKernel 2] [] ∧
      s'.getNumKernels = 3 ∧
      s'.root (smallNet .mainnet) k.getSize = k.root (smallNet .mainnet) k.getSize := by
  have hempty : KernelFiles.RangeOf (smallNet .mainnet) ⟨[], []⟩ [] := ⟨isRange_nil, rfl⟩
  obtain ⟨k₁, -, hk₁⟩ := hempty.applyKernel_ok (coinbaseKernel 0)
  obtain ⟨k₂, -, hk₂⟩ := hk₁.applyKernel_ok (coinbaseKernel 1)
  obtain ⟨k, -, hk⟩ := hk₂.applyKernel_ok (coinbaseKernel 2)
  obtain ⟨s, -, hformat, hs⟩ :=
    (stores_empty (G := smallNet .mainnet) .variable).run_applyKernel (coinbaseKernel 0)
  have hmatches : k.segmentReaders.Matches 3 none := .plain rfl
  obtain ⟨segments, hsegments⟩ := hk.offers.exists_built hmatches (by decide)
    (show 1 ≤ UInt8.toNat 1 by decide)
  rw [show leafPos _ = k.getSize by
    rw [KernelFiles.getSize, hk.range.length_eq, List.length_map]] at hsegments
  obtain ⟨s', hs'⟩ := download_stores (m := 1) hk (by decide) le_rfl hsegments (by decide) hs
  exact ⟨k, s, s', segments, hformat, hs.getNumKernels_eq, hsegments, hs'⟩

end KernelStorage

end GrinPlusPlus
