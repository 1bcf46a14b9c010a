import GrinPlusPlus.Pmmr.TxHashSet

/-!
# Validation of a downloaded hash set

`TxHashSetValidator`: the checks a hash set that came from a peer has to pass before the
chain is built on it. The headers are read by height from the candidate chain, so the lookup
is an argument.

The checks run while the node is running; a node that is shut down reports no success, and
is left out. The progress that the source reports in between is left out as well.
-/

namespace GrinPlusPlus

open MMRHashUtil

/-- `PruneableMMR::GetHashAt`. -/
def PruneableFiles.getHashAt {α : Type} (f : PruneableFiles α) (position : ℕ) :
    Except Exc (Option Hash) :=
  if f.pruneList.isCompacted position then .ok none
  else do
    let hash ← MMRHashUtil.getHashAt f.hashFile position (some f.pruneList)
    .ok (some hash)

/-- `KernelMMR::GetHashAt`. -/
def KernelFiles.getHashAt (f : KernelFiles) (position : ℕ) : Except Exc (Option Hash) := do
  let hash ← getDataAt f.hashFile position
  .ok (some hash)

/-- `KernelMMR::GetNumKernels`. -/
def KernelFiles.getNumKernels (f : KernelFiles) : ℕ := f.dataFile.length

namespace TxHashSetValidator

variable (G : Global)

/-- `TxHashSetValidator::ValidateSizes`. -/
def validateSizes (t : TxHashSet) (header : BlockHeader) : Bool :=
  decide (t.kernelMMR.current.getSize = header.getKernelMMRSize) &&
    decide (t.outputPMMR.current.getSize = header.getOutputMMRSize) &&
    decide (t.rangeProofPMMR.current.getSize = header.getOutputMMRSize)

/-- The hash of an inner node that is there, with both of its children, is the hash of its
children. -/
def validateParent (getHashAt : ℕ → Except Exc (Option Hash)) (position : ℕ) :
    Except Exc Bool :=
  let height := Index.calculateHeight position
  if height = 0 then .ok true
  else do
    match ← getHashAt position with
    | none => .ok true
    | some parent => do
      let left ← getHashAt (Index.getLeftChild position height)
      let right ← getHashAt (Index.getRightChild position)
      match left, right with
      | some left, some right =>
        .ok (decide (parent = hashParentWithIndex G left right position))
      | _, _ => .ok true

/-- `TxHashSetValidator::ValidateMMRHashes`, which catches what is thrown. -/
def validateMMRHashes (size : ℕ) (getHashAt : ℕ → Except Exc (Option Hash)) : Bool :=
  (List.range size).all fun position =>
    match validateParent G getHashAt position with
    | .ok valid => valid
    | .error _ => false

/-- The loop of `TxHashSetValidator::ValidateKernelHistory`, from a height on. -/
def validateKernelHistory (getHeader : ℕ → Option BlockHeader) (kernels : KernelFiles) :
    List ℕ → Except Exc Bool
  | [] => .ok true
  | height :: heights =>
    match getHeader height with
    | none => .ok false
    | some header => do
      let root ← kernels.root G header.getKernelMMRSize
      if root ≠ header.kernelRoot then .ok false
      else validateKernelHistory getHeader kernels heights

/-- The last time an excess occurred is closer than the relative height of a kernel. -/
def tooSoon (positions : List (Commitment × ℕ)) (height : ℕ) (kernel : TransactionKernel) :
    Bool :=
  match positions.lookup kernel.excessCommitment with
  | some previous => decide (height - previous < kernel.lockHeight.toNat)
  | none => false

/-- The kernels of one height in `TxHashSetValidator::ValidateNRDKernelHistory`: the last
height of every no-recent-duplicate kernel so far, or `none` when one of them is invalid. -/
def nrdKernelHistory (kernels : KernelFiles) (height : ℕ) :
    List ℕ → List (Commitment × ℕ) → Option (List (Commitment × ℕ))
  | [], positions => some positions
  | kernelIndex :: indices, positions =>
    match kernels.getKernelAt kernelIndex with
    | none => none
    | some kernel =>
      if kernel.features ≠ .noRecentDuplicate then
        nrdKernelHistory kernels height indices positions
      else
        let relativeHeight := kernel.lockHeight.toNat
        if relativeHeight = 0 ∨ Consensus.weekHeight < relativeHeight ∨
          tooSoon positions height kernel = true then none
        else
          nrdKernelHistory kernels height indices
            ((kernel.excessCommitment, height) :: positions)

/-- The loop of `TxHashSetValidator::ValidateNRDKernelHistory`, from a height on. -/
def validateNRDKernelHistory (getHeader : ℕ → Option BlockHeader) (kernels : KernelFiles)
    (totalKernels : ℕ) : List ℕ → ℕ → List (Commitment × ℕ) → Bool
  | [], _, _ => true
  | height :: heights, previousNumKernels, positions =>
    match getHeader height with
    | none => false
    | some header =>
      let currentNumKernels := header.getNumKernels
      if currentNumKernels < previousNumKernels ∨ totalKernels < currentNumKernels then false
      else
        match nrdKernelHistory kernels height
          (List.range' previousNumKernels (currentNumKernels - previousNumKernels))
          positions with
        | none => false
        | some positions =>
          validateNRDKernelHistory getHeader kernels totalKernels heights currentNumKernels
            positions

/-- The outputs that are not spent, up to a number of leaves. -/
def unspentOutputs (t : TxHashSet) (numOutputs : ℕ) : List OutputIdentifier :=
  (List.range numOutputs).filterMap fun i => t.outputPMMR.current.getAt i

/-- `TxHashSetValidator::ValidateKernelSums`; the overage is a number of 64 bits. -/
def validateKernelSums (t : TxHashSet) (header : BlockHeader) : Except Exc BlockSums := do
  let overage := (-(Consensus.reward * (1 + header.getHeight) : ℤ)).bmod (2 ^ 64)
  let outputSums ← KernelSumValidator.appendChunkSums G
    ((unspentOutputs t header.getNumOutputs).map OutputIdentifier.commitment)
  let excessSums ← KernelSumValidator.appendChunkSums G
    (((List.range header.getNumKernels).filterMap fun i =>
      t.kernelMMR.current.getKernelAt i).map TransactionKernel.excessCommitment)
  KernelSumValidator.validateCommitmentSums G [] outputSums excessSums overage
    header.totalKernelOffset none

/-- The range proofs of the outputs that are not spent, or `none` when one is missing. -/
def unspentRangeProofs (t : TxHashSet) : List ℕ → Option (List (Commitment × RangeProof))
  | [] => some []
  | i :: leaves =>
    match t.outputPMMR.current.getAt i with
    | none => unspentRangeProofs t leaves
    | some output =>
      match t.rangeProofPMMR.current.getAt i with
      | none => none
      | some proof => (unspentRangeProofs t leaves).map ((output.commitment, proof) :: ·)

/-- `TxHashSetValidator::ValidateRangeProofs`, in batches of 1000. -/
def validateRangeProofs (t : TxHashSet) : Bool :=
  let size := t.outputPMMR.current.getSize
  match unspentRangeProofs t ((List.range size).filter fun i => leafPosition i < size) with
  | none => false
  | some proofs => (proofs.toChunks 1000).all G.verifyRangeProofs

/-- `TxHashSetValidator::ValidateKernelSignatures`, in batches of 5000. -/
def validateKernelSignatures (kernels : KernelFiles) : Bool :=
  (kernels.dataFile.toChunks 5000).all (TxBodyValidator.batchVerify G)

/-- `TxHashSetValidator::Validate`. -/
def validate (getHeader : ℕ → Option BlockHeader) (t : TxHashSet) (header : BlockHeader) :
    Except Exc (Option BlockSums) := do
  let kernels := t.kernelMMR.current
  let outputs := t.outputPMMR.current
  let rangeProofs := t.rangeProofPMMR.current
  let heights := List.range (header.getHeight + 1)
  if validateSizes t header = false then .ok none
  else if (validateMMRHashes G kernels.getSize kernels.getHashAt &&
      validateMMRHashes G outputs.getSize outputs.getHashAt &&
      validateMMRHashes G rangeProofs.getSize rangeProofs.getHashAt) = false then .ok none
  else do
    let rootsValid ← t.validateRoots G header
    if rootsValid = false then .ok none
    else do
      let historyValid ← validateKernelHistory G getHeader kernels heights
      if historyValid = false then .ok none
      else if validateNRDKernelHistory getHeader kernels header.getNumKernels heights 0 [] =
        false then .ok none
      else
        match validateKernelSums G t header with
        | .error _ => .ok none
        | .ok sums =>
          if validateRangeProofs G t = false then .ok none
          else if validateKernelSignatures G kernels = false then .ok none
          else .ok (some sums)

end TxHashSetValidator

/-- `TxHashSet::ValidateTxHashSet`. -/
def TxHashSet.validateTxHashSet (G : Global) (getHeader : ℕ → Option BlockHeader) (t : TxHashSet)
    (header : BlockHeader) : Option BlockSums :=
  match TxHashSetValidator.validate G getHeader t header with
  | .ok sums => sums
  | .error _ => none

end GrinPlusPlus
