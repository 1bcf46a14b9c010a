import GrinPlusPlus.Core.Consensus

/-!
# Validation of bodies, transactions and blocks

`TxBodyValidator`, `KernelSumValidator`, `TransactionValidator` and `BlockValidator`: the
checks that need no chain. They are pure. The source marks a block that passed
`BlockValidator::VerifySelfConsistent` and skips the check when it sees the mark again;
as the check only depends on the block, the mark makes no difference and is left out.
-/

namespace GrinPlusPlus

variable (G : Global)

/-! ### The results of the curve functions -/

/-- `Crypto::AddCommitments`. -/
def addCommitments (positive negative : List Commitment) : Except Exc Commitment :=
  orThrow (G.addCommitments positive negative) (.crypto "secp256k1_pedersen_commit_sum error.")

/-- `Crypto::CommitTransparent`. -/
def commitTransparent (value : ℕ) : Except Exc Commitment :=
  orThrow (G.commitTransparent value) (.crypto "Failed to create commitment.")

/-- `Crypto::CommitBlinded`. -/
def commitBlinded (value : ℕ) (blind : BlindingFactor) : Except Exc Commitment :=
  orThrow (G.commitBlinded value blind) (.crypto "Failed to create commitment.")

/-- A check that throws. -/
def require (c : Prop) [Decidable c] (e : Exc) : Except Exc Unit :=
  if c then .ok () else .error e

/-- The handler of a `catch (std::exception&)`. -/
def catching {α : Type} (x : Except Exc α) (handler : Except Exc α) : Except Exc α :=
  match x with
  | .ok a => .ok a
  | .error e => if e.Thrown then handler else .error e

/-! ### Bodies -/

/-- `Consensus::IsSorted`: no hash is greater than the next one. -/
def isSorted {α : Type} (getHash : α → Hash) (values : List α) : Bool :=
  (values.zip values.tail).all fun p => !decide (getHash p.2 < getHash p.1)

/-- Two neighbours that count as equal. -/
def hasDuplicate {α : Type} (eq : α → α → Bool) (values : List α) : Bool :=
  (values.zip values.tail).any fun p => eq p.2 p.1

namespace TxBodyValidator

/-- `TxBodyValidator::VerifySorted`. -/
def verifySorted (body : TransactionBody) : Except Exc Unit := do
  require
    (isSorted (TransactionInput.getHash G) body.inputs &&
      isSorted (TransactionOutput.getHash G) body.outputs &&
      isSorted (TransactionKernel.getHash G) body.kernels)
    (.badData .badTransaction "Inputs, outputs, and/or kernels not sorted.")
  require (!hasDuplicate (fun a b => decide (a = b)) body.inputs)
    (.badData .badTransaction "Duplicate inputs.")
  require (!hasDuplicate (fun a b => decide (a.getHash G = b.getHash G)) body.outputs)
    (.badData .badTransaction "Duplicate outputs.")

/-- `TxBodyValidator::VerifyCutThrough`. -/
def verifyCutThrough (body : TransactionBody) : Except Exc Unit :=
  require (¬ ∃ i ∈ body.inputs, i.commitment ∈ body.outputs.map TransactionOutput.commitment)
    (.badData .badTransaction "Cut-through not performed correctly.")

/-- `TxBodyValidator::VerifyRangeProofs`. -/
def verifyRangeProofs (outputs : List TransactionOutput) : Except Exc Unit :=
  require (G.verifyRangeProofs (outputs.map fun o => (o.commitment, o.rangeProof)))
    (.badData .badTransaction "Range proofs invalid.")

/-- `KernelSignatureValidator::BatchVerify`. -/
def batchVerify (kernels : List TransactionKernel) : Bool :=
  kernels.isEmpty ||
    G.verifyKernelSignatures
      (kernels.map fun k => (k.excessSignature, k.excessCommitment, k.getSignatureMessage G))

/-- `TxBodyValidator::Validate`. -/
def validate (body : TransactionBody) : Except Exc Unit := do
  verifySorted G body
  verifyCutThrough body
  verifyRangeProofs G body.outputs
  require (batchVerify G body.kernels) (.badData .badTransaction "Kernel signatures invalid")

end TxBodyValidator

/-! ### Kernel sums -/

namespace KernelSumValidator

/-- `KernelSumValidator::COMMITMENT_SUM_CHUNK_SIZE`. -/
def commitmentSumChunkSize : ℕ := 65536

/-- `KernelSumValidator::AppendChunkSums`. -/
def appendChunkSums (commitments : List Commitment) : Except Exc (List Commitment) :=
  (commitments.toChunks commitmentSumChunkSize).mapM fun chunk => addCommitments G chunk []

/-- `KernelSumValidator::AddCommitmentsChunked`. -/
def addCommitmentsChunked (positive negative : List Commitment) : Except Exc Commitment :=
  if positive.length + negative.length ≤ commitmentSumChunkSize then
    addCommitments G positive negative
  else do
    let positivePartials ← appendChunkSums G positive
    let negativePartials ← appendChunkSums G negative
    addCommitments G positivePartials negativePartials

/-- `KernelSumValidator::AddKernelOffset`. -/
def addKernelOffset (kernelSum : Commitment) (offset : BlindingFactor) : Except Exc Commitment :=
  if offset.bytes.all (· = 0) then .ok kernelSum
  else do
    let offsetCommit ← commitBlinded G 0 offset
    addCommitments G [kernelSum, offsetCommit] []

/-- The commitments of the overage, to the outputs and to the inputs. -/
def overageCommitments (overage : ℤ) : Except Exc (List Commitment × List Commitment) :=
  if 0 < overage then do
    let c ← commitTransparent G overage.toNat
    .ok ([c], [])
  else if overage < 0 then do
    let c ← commitTransparent G (-overage).toNat
    .ok ([], [c])
  else .ok ([], [])

/-- `KernelSumValidator::ValidateKernelSums` of lists of commitments. -/
def validateCommitmentSums (inputs outputs kernels : List Commitment) (overage : ℤ)
    (kernelOffset : BlindingFactor) (blockSums : Option BlockSums) : Except Exc BlockSums := do
  let (additionalOutputs, additionalInputs) ← overageCommitments G overage
  let utxoSum ← addCommitmentsChunked G
    (outputs ++ additionalOutputs ++ (blockSums.map BlockSums.outputSum).toList)
    (inputs ++ additionalInputs)
  let kernelSum ← addCommitmentsChunked G
    (kernels ++ (blockSums.map BlockSums.kernelSum).toList) []
  let kernelSumPlusOffset ← addKernelOffset G kernelSum kernelOffset
  require (utxoSum = kernelSumPlusOffset)
    (.badData .badBlock "UTXO sum does not match kernel sum plus offset")
  .ok ⟨utxoSum, kernelSum⟩

/-- `KernelSumValidator::ValidateKernelSums` of a body. -/
def validateKernelSums (body : TransactionBody) (overage : ℤ) (kernelOffset : BlindingFactor)
    (blockSums : Option BlockSums) : Except Exc BlockSums :=
  validateCommitmentSums G (body.inputs.map TransactionInput.commitment)
    (body.outputs.map TransactionOutput.commitment)
    (body.kernels.map TransactionKernel.excessCommitment) overage kernelOffset blockSums

end KernelSumValidator

/-! ### Transactions -/

namespace TransactionValidator

/-- `TransactionValidator::ValidateWeight`. -/
def validateWeight (body : TransactionBody) (blockHeight : ℕ) : Except Exc Unit :=
  require
    (body.calcWeight G.env blockHeight + (Consensus.outputWeight + Consensus.kernelWeight) ≤
      Consensus.maxBlockWeight)
    (.badData .badTransaction "Transaction exceeds maximum weight")

/-- `TransactionValidator::ValidateFeatures`. -/
def validateFeatures (body : TransactionBody) : Except Exc Unit := do
  require (!body.outputs.any fun o => o.features.isCoinbase)
    (.badData .badTransaction "Transaction contains coinbase outputs.")
  require (!body.kernels.any fun k => k.features.isCoinbase)
    (.badData .badTransaction "Transaction contains coinbase kernels.")

/-- `TransactionValidator::ValidateKernelSums`. -/
def validateKernelSums (tx : Transaction) : Except Exc Unit :=
  catching
    (do
      let _ ← KernelSumValidator.validateKernelSums G tx.body
        (tx.body.kernels.foldl (fun sum k => sum + (k.fee.fee.toNat : ℤ)) 0) tx.offset none
      .ok ())
    (.error (.badData .badTransaction "Kernel sum validation failed with error"))

/-- `TransactionValidator::Validate`. -/
def validate (tx : Transaction) (blockHeight : ℕ) : Except Exc Unit := do
  validateWeight G tx.body blockHeight
  TxBodyValidator.validate G tx.body
  validateFeatures tx.body
  validateKernelSums G tx

end TransactionValidator

/-! ### Blocks -/

namespace BlockValidator

/-- `BlockValidator::VerifyWeight`. -/
def verifyWeight (block : FullBlock) : Except Exc Unit :=
  require (block.body.calcWeight G.env block.getHeight ≤ Consensus.maxBlockWeight)
    (.badData .badBlock "Block exceeds maximum weight")

/-- `BlockValidator::VerifyKernelLockHeights`. -/
def verifyKernelLockHeights (block : FullBlock) : Except Exc Unit :=
  require (∀ k ∈ block.body.kernels, k.lockHeight.toNat ≤ block.getHeight)
    (.badData .badBlock "Failed to validate kernel lock heights")

/-- `BlockValidator::VerifyBody`. -/
def verifyBody (block : FullBlock) : Except Exc Unit :=
  catching (TxBodyValidator.validate G block.body)
    (.error (.badData .badBlock "Transaction body for block failed with error"))

/-- `BlockValidator::VerifyCoinbase`. -/
def verifyCoinbase (block : FullBlock) : Except Exc Unit := do
  let coinbaseCommitments :=
    (block.body.outputs.filter fun o => o.features.isCoinbase).map TransactionOutput.commitment
  let coinbaseKernelExcesses :=
    (block.body.kernels.filter fun k => k.features.isCoinbase).map
      TransactionKernel.excessCommitment
  let reward := UInt64.ofNat Consensus.reward + block.body.calcFee
  let overCommitment ← commitTransparent G reward.toNat
  let outputAdjustedSum ← addCommitments G coinbaseCommitments [overCommitment]
  let kernelSum ← addCommitments G coinbaseKernelExcesses []
  require (kernelSum = outputAdjustedSum) (.badData .badBlock "Failed to validate coinbase")

/-- `BlockValidator::VerifySelfConsistent`. -/
def verifySelfConsistent (block : FullBlock) : Except Exc Unit := do
  verifyWeight G block
  verifyKernelLockHeights block
  verifyBody G block
  verifyCoinbase G block

end BlockValidator

end GrinPlusPlus
