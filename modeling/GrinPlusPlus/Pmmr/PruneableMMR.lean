import GrinPlusPlus.Pmmr.HeaderMMR

/-!
# The ranges of the transaction hash set

`PruneableMMR`, instantiated by `OutputPMMR` and `RangeProofPMMR`: a file of hashes, a file
of leaves, the set of the leaves that are not spent and the list of the subtrees that were
pruned. `KernelMMR` has the first two only; of its two storage formats the fixed one is
modelled, which is the one a node starts with.

`GrinPlusPlus.PruneableFiles.RangeOf` is the **invariant** of a range that was never pruned:
its files are the range of its leaves, and only leaves that exist are marked unspent.
Appending, removing and rewinding keep it.
-/

namespace GrinPlusPlus

open PostOrder Mountain MMRHashUtil

/-- A subtraction in 64 bits. -/
def sub64 (a b : ℕ) : ℕ :=
  if b ≤ a then a - b else a + 2 ^ 64 - b

@[simp] theorem sub64_zero (a : ℕ) : sub64 a 0 = a := by
  simp [sub64]

/-! ### The set of unspent leaves -/

namespace LeafSet

/-- `BitmapFile::Set`. -/
def add (leafIndex : ℕ) (s : ℕ → Bool) : ℕ → Bool :=
  Function.update s leafIndex true

/-- `BitmapFile::Unset`. -/
def remove (leafIndex : ℕ) (s : ℕ → Bool) : ℕ → Bool :=
  Function.update s leafIndex false

/-- `BitmapFile::Rewind`: the leaves to add are set, then every bit from the number of
leaves on is cleared. -/
def rewind (numLeaves : ℕ) (leavesToAdd : List ℕ) (s : ℕ → Bool) : ℕ → Bool :=
  fun i => decide (i < numLeaves) && (s i || leavesToAdd.contains i)

/-- `BitmapFile::GetByte`: the first leaf is the highest bit. -/
def getByte (s : ℕ → Bool) (byteIndex : ℕ) : UInt8 :=
  byteOf fun b => s (8 * byteIndex + (7 - b))

/-- The bytes of a chunk of 1024 leaves. -/
def chunk (s : ℕ → Bool) (i : ℕ) : List UInt8 :=
  (List.range 128).map fun j => getByte s (128 * i + j)

/-- The chunks of the first leaves. -/
def chunks (s : ℕ → Bool) (numOutputs : ℕ) : List (List UInt8) :=
  (List.range ((numOutputs + 1023) / 1024)).map (chunk s)

variable (G : Global)

/-- `BitmapAccumulator::AppendChunk`, for chunk after chunk. -/
def appendChunks : List (List UInt8) → List Hash → Except Exc (List Hash)
  | [], nodes => .ok nodes
  | c :: cs, nodes => do
    let nodes ← addHashes G nodes c none
    appendChunks cs nodes

/-- `LeafSet::Root`: the root of the chunks. -/
def root (s : ℕ → Bool) (numOutputs : ℕ) : Except Exc Hash := do
  let nodes ← appendChunks G (chunks s numOutputs) []
  if nodes.length = 0 then .ok Hash.zero
  else do
    let hashes ← peakHashes nodes none (getPeakIndices nodes.length)
    .ok (bagAll (nodeHash G) Hash.zero nodes.length hashes)

end LeafSet

/-! ### Pruneable ranges -/

/-- The files of a pruneable range. -/
structure PruneableFiles (α : Type) where
  /-- `m_pHashFile`. -/
  hashFile : List Hash
  /-- `m_pLeafSet`. -/
  leafSet : ℕ → Bool
  /-- `m_pPruneList`. -/
  pruneList : PruneList
  /-- `m_pDataFile`. -/
  dataFile : List α

/-- `PruneableMMR`. -/
abbrev PruneableMMR (α : Type) := Batch (PruneableFiles α)

/-- `OutputPMMR`. -/
abbrev OutputPMMR := PruneableMMR OutputIdentifier

/-- `RangeProofPMMR`. -/
abbrev RangeProofPMMR := PruneableMMR RangeProof

namespace PruneableFiles

variable {α : Type} (G : Global) (serialized : α → List UInt8)

/-- `PruneableMMR::GetSize`. -/
def getSize (f : PruneableFiles α) : ℕ :=
  f.pruneList.getTotalShift + f.hashFile.length

/-- `PruneableMMR::Append`. -/
def append (object : α) (f : PruneableFiles α) : Except Exc (PruneableFiles α) := do
  let hashFile ← addHashes G f.hashFile (serialized object) (some f.pruneList)
  .ok { f with
    leafSet := LeafSet.add (Index.calculateLeafIndex f.getSize) f.leafSet
    dataFile := f.dataFile ++ [object]
    hashFile := hashFile }

/-- `PruneableMMR::Remove`. -/
def remove (leafIndex : ℕ) (f : PruneableFiles α) : Except Exc (PruneableFiles α) :=
  if f.leafSet leafIndex then .ok { f with leafSet := LeafSet.remove leafIndex f.leafSet }
  else .error (.txHashSet "LeafSet does not contain output")

/-- `PruneableMMR::Rewind`. -/
def rewind (numLeaves : ℕ) (leavesToAdd : List ℕ) (f : PruneableFiles α) :
    Except Exc (PruneableFiles α) := do
  let position := leafPosition numLeaves
  let hashFile ←
    rewindFile (sub64 position (f.pruneList.getShift (decrement position))) f.hashFile
  let dataFile ←
    rewindFile (sub64 numLeaves (f.pruneList.getLeafShift (decrement position))) f.dataFile
  .ok { f with
    hashFile := hashFile
    dataFile := dataFile
    leafSet := LeafSet.rewind numLeaves leavesToAdd f.leafSet }

/-- `PruneableMMR::Root`. -/
def root (size : ℕ) (f : PruneableFiles α) : Except Exc Hash :=
  MMRHashUtil.root G f.hashFile size (some f.pruneList)

/-- `PruneableMMR::UBMTRoot`. -/
def ubmtRoot (numOutputs : ℕ) (f : PruneableFiles α) : Except Exc Hash :=
  LeafSet.root G f.leafSet numOutputs

/-- `PruneableMMR::IsUnpruned`. -/
def isUnpruned (leafIndex : ℕ) (f : PruneableFiles α) : Bool :=
  decide (leafPosition leafIndex < f.getSize) && f.leafSet leafIndex

/-- `PruneableMMR::GetDataAt`. -/
def getDataAt (leafIndex : ℕ) (f : PruneableFiles α) : Option α :=
  if f.getSize ≤ leafPosition leafIndex ∨ f.pruneList.isCompacted (leafPosition leafIndex) then
    none
  else f.dataFile[leafIndex - f.pruneList.getLeafShift (leafPosition leafIndex + 1)]?

/-- `PruneableMMR::GetAt`. -/
def getAt (leafIndex : ℕ) (f : PruneableFiles α) : Option α :=
  if f.isUnpruned leafIndex then f.getDataAt leafIndex else none

/-! ### The invariant of a range that was never pruned -/

/-- The files are the range of some leaves, nothing is pruned, and every unspent leaf
exists. -/
structure RangeOf (f : PruneableFiles α) (leaves : List α) : Prop where
  /-- The hashes are the range of the leaves. -/
  range : IsRangeOf G f.hashFile (leaves.map serialized)
  /-- The data file has the leaves. -/
  dataFile_eq : f.dataFile = leaves
  /-- Nothing was pruned. -/
  pruneList_eq : f.pruneList = .empty
  /-- Every unspent leaf exists. -/
  leafSet_lt : ∀ i, f.leafSet i = true → i < leaves.length

variable {G serialized} {f f' : PruneableFiles α} {leaves : List α}

theorem RangeOf.getSize_eq (h : RangeOf G serialized f leaves) :
    f.getSize = leafPos leaves.length := by
  rw [getSize, h.pruneList_eq, h.range.length_eq, List.length_map,
    PruneList.empty_getTotalShift, Nat.zero_add]

/-- In such a range a leaf is unspent when its bit is set. -/
theorem RangeOf.isUnpruned_eq (h : RangeOf G serialized f leaves) (i : ℕ) :
    f.isUnpruned i = f.leafSet i := by
  rw [isUnpruned, h.getSize_eq, leafPosition]
  cases hi : f.leafSet i with
  | false => rw [Bool.and_false]
  | true => rw [Bool.and_true, decide_eq_true_eq.mpr (leafPos_strictMono (h.leafSet_lt i hi))]

/-- Such a range gives back its leaves. -/
theorem RangeOf.getDataAt_eq (h : RangeOf G serialized f leaves) (i : ℕ) :
    f.getDataAt i = leaves[i]? := by
  rw [getDataAt, h.getSize_eq, h.pruneList_eq, h.dataFile_eq, leafPosition]
  simp only [PruneList.empty_isCompacted, PruneList.empty_getLeafShift, Nat.sub_zero,
    Bool.false_eq_true, or_false]
  split
  · next hle =>
    rw [List.getElem?_eq_none (leafPos_strictMono.le_iff_le.mp hle)]
  · rfl

theorem RangeOf.getAt_eq (h : RangeOf G serialized f leaves) (i : ℕ) :
    f.getAt i = if f.leafSet i then leaves[i]? else none := by
  rw [getAt, h.isUnpruned_eq, h.getDataAt_eq]

/-- **Appending** adds an unspent leaf. -/
theorem RangeOf.append_ok (h : RangeOf G serialized f leaves) (x : α) :
    ∃ f', f.append G serialized x = .ok f' ∧ RangeOf G serialized f' (leaves ++ [x]) ∧
      f'.leafSet = LeafSet.add leaves.length f.leafSet := by
  obtain ⟨file, hfile, hrange, -⟩ := addHashes_ok h.range (serialized x)
  have hindex : Index.calculateLeafIndex f.getSize = leaves.length := by
    rw [h.getSize_eq, calculateLeafIndex_leafPos]
  rw [append, h.pruneList_eq, addHashes_empty, hfile, hindex]
  refine ⟨_, rfl, ⟨?_, ?_, ?_, ?_⟩, rfl⟩
  · rw [List.map_append]
    exact hrange
  · exact congrArg (· ++ [x]) h.dataFile_eq
  · rfl
  · intro i hi
    rw [List.length_append, List.length_singleton]
    by_cases heq : i = leaves.length
    · omega
    · have := h.leafSet_lt i (by simpa [LeafSet.add, heq] using hi)
      omega

/-- **Removing** clears the bit of an unspent leaf. -/
theorem RangeOf.of_remove (h : RangeOf G serialized f leaves) {i : ℕ}
    (hr : f.remove i = .ok f') :
    f.leafSet i = true ∧ f' = { f with leafSet := LeafSet.remove i f.leafSet } ∧
      RangeOf G serialized f' leaves := by
  rw [remove] at hr
  split at hr
  · next hi =>
    cases hr
    refine ⟨hi, rfl, ⟨h.range, h.dataFile_eq, h.pruneList_eq, fun j hj => ?_⟩⟩
    by_cases heq : j = i
    · exact h.leafSet_lt j (heq ▸ hi)
    · exact h.leafSet_lt j (by simpa [LeafSet.remove, heq] using hj)
  · cases hr

/-- **Rewinding** drops the last leaves. -/
theorem RangeOf.of_rewind (h : RangeOf G serialized f leaves) {n : ℕ} {leavesToAdd : List ℕ}
    (hr : f.rewind n leavesToAdd = .ok f') :
    n ≤ leaves.length ∧ RangeOf G serialized f' (leaves.take n) ∧
      f'.leafSet = LeafSet.rewind n leavesToAdd f.leafSet := by
  rw [rewind, h.pruneList_eq, PruneList.empty_getShift, PruneList.empty_getLeafShift,
    sub64_zero, sub64_zero, rewindFile, rewindFile, leafPosition] at hr
  split at hr
  · cases hr
  · next hlen =>
    split at hr
    · cases hr
    · next hle =>
      cases hr
      rw [h.dataFile_eq] at hle
      have hn : n ≤ leaves.length := Nat.le_of_not_lt hle
      refine ⟨hn, ⟨?_, ?_, rfl, fun i hi => ?_⟩, rfl⟩
      · rw [List.map_take]
        exact h.range.take n (by rwa [List.length_map])
      · exact congrArg (List.take n) h.dataFile_eq
      · simp only [LeafSet.rewind, Bool.and_eq_true, decide_eq_true_eq] at hi
        rw [List.length_take]
        omega

end PruneableFiles

/-! ### Kernels -/

/-- The files of the kernel range. -/
structure KernelFiles where
  /-- `m_pHashFile`. -/
  hashFile : List Hash
  /-- `m_pFixedDataFile`. -/
  dataFile : List TransactionKernel

/-- `KernelMMR`. -/
abbrev KernelMMR := Batch KernelFiles

namespace KernelFiles

variable (G : Global)

/-- `KernelMMR::GetSize`. -/
def getSize (f : KernelFiles) : ℕ := f.hashFile.length

/-- `KernelMMR::ApplyKernel`. -/
def applyKernel (kernel : TransactionKernel) (f : KernelFiles) : Except Exc KernelFiles := do
  let hashFile ← addHashes G f.hashFile kernel.serialize none
  .ok { hashFile := hashFile, dataFile := f.dataFile ++ [kernel] }

/-- `KernelMMR::Rewind`. -/
def rewind (numKernels : ℕ) (f : KernelFiles) : Except Exc KernelFiles := do
  let hashFile ← rewindFile (leafPosition numKernels) f.hashFile
  let dataFile ← rewindFile numKernels f.dataFile
  .ok { hashFile := hashFile, dataFile := dataFile }

/-- `KernelMMR::Root`. -/
def root (size : ℕ) (f : KernelFiles) : Except Exc Hash :=
  MMRHashUtil.root G f.hashFile size none

/-- `KernelMMR::GetKernelAt`. -/
def getKernelAt (leafIndex : ℕ) (f : KernelFiles) : Option TransactionKernel :=
  f.dataFile[leafIndex]?

/-- The files are the range of some kernels. -/
structure RangeOf (f : KernelFiles) (kernels : List TransactionKernel) : Prop where
  /-- The hashes are the range of the kernels. -/
  range : IsRangeOf G f.hashFile (kernels.map TransactionKernel.serialize)
  /-- The data file has the kernels. -/
  dataFile_eq : f.dataFile = kernels

variable {G} {f f' : KernelFiles} {kernels : List TransactionKernel}

theorem RangeOf.applyKernel_ok (h : RangeOf G f kernels) (k : TransactionKernel) :
    ∃ f', f.applyKernel G k = .ok f' ∧ RangeOf G f' (kernels ++ [k]) := by
  obtain ⟨file, hfile, hrange, -⟩ := addHashes_ok h.range k.serialize
  rw [applyKernel, hfile]
  refine ⟨_, rfl, ⟨?_, ?_⟩⟩
  · rw [List.map_append]
    exact hrange
  · exact congrArg (· ++ [k]) h.dataFile_eq

theorem RangeOf.of_rewind (h : RangeOf G f kernels) {n : ℕ} (hr : f.rewind n = .ok f') :
    n ≤ kernels.length ∧ RangeOf G f' (kernels.take n) := by
  rw [rewind, rewindFile, rewindFile, leafPosition] at hr
  split at hr
  · cases hr
  · split at hr
    · cases hr
    · next hle =>
      cases hr
      rw [h.dataFile_eq] at hle
      have hn : n ≤ kernels.length := Nat.le_of_not_lt hle
      refine ⟨hn, ⟨?_, ?_⟩⟩
      · rw [List.map_take]
        exact h.range.take n (by rwa [List.length_map])
      · exact congrArg (List.take n) h.dataFile_eq

end KernelFiles

end GrinPlusPlus
