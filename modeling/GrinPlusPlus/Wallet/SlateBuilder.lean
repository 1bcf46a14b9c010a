import GrinPlusPlus.Core.WireCodec
import GrinPlusPlus.Wallet.WalletDB

/-!
# The slate builders

`SendSlateBuilder`, `ReceiveSlateBuilder` and `FinalizeSlateBuilder`: the three calls that take a
payment from a list of coins to a transaction. Each builds its slate and writes what it made in
one batch of the database, so a call that throws leaves the database as it was; the functions
below give the new database only with a result.

Whatever a call draws at random – the identifier of a slate, an offset, a secret nonce – is an
argument. A partial signature comes with the record of what it was made of
(`GrinPlusPlus.PartialSigning`): the secret nonce and the challenge.
-/

namespace GrinPlusPlus

/-! ### The wallet -/

/-- `KeyChain`: what the wallet derives from its seed. -/
structure KeyChain where
  /-- `KeyChain::DerivePrivateKey`. -/
  derivePrivateKey : KeyChainPath → UInt64 → Option SecretKey
  /-- `KeyChain::GenerateRangeProof`. -/
  generateRangeProof : KeyChainPath → UInt64 → Commitment → SecretKey → Option RangeProof
  /-- `KeyChain::DeriveED25519Key`, of an index below the path of the addresses. -/
  deriveED25519Key : ℕ → Ed25519KeyPair

/-- `std::sort` of coins by their amounts: nothing is lost and the amounts do not decrease. -/
structure CoinSort where
  /-- The sort. -/
  sort : List OutputDataEntity → List OutputDataEntity
  /-- Nothing is lost. -/
  perm : ∀ coins, (sort coins).Perm coins
  /-- The amounts do not decrease. -/
  sorted : ∀ coins, (sort coins).Pairwise fun a b => a.amount ≤ b.amount

/-- `WalletImpl`: the keys of a wallet and its configuration. -/
structure WalletImpl (G : Global) where
  /-- The keys. -/
  keyChain : KeyChain
  /-- The sorts of `TransactionBody`. -/
  bodySort : BodySort G
  /-- The sort of `CoinSelection`. -/
  coinSort : CoinSort
  /-- `Config::GetMinimumConfirmations`. -/
  minimumConfirmations : UInt64
  /-- There is a Tor address. -/
  hasTorAddress : Bool

/-- The path of the account, `m/0/0`. -/
def userPath : KeyChainPath := [0, 0]

section Builders

variable (G : Global) (C : Crypto) (W : WalletImpl G)

/-! ### Keys and signatures -/

/-- `Crypto::AddBlindingFactors`. -/
def addBlindingFactors (positive negative : List BlindingFactor) :
    Except WalletExc BlindingFactor :=
  orFail (G.addBlindingFactors positive negative)
    (.core (.crypto "secp256k1_pedersen_blind_sum error"))

/-- `Crypto::CalculatePublicKey`. -/
def calculatePublicKey (privateKey : SecretKey) : Except WalletExc PublicKey :=
  orFail (C.calculatePublicKey privateKey) (.core (.crypto "secp256k1_ec_seckey_verify failed"))

/-- `Crypto::ToCommitment`. -/
def toCommitment (publicKey : PublicKey) : Except WalletExc Commitment :=
  orFail (C.toCommitment publicKey) (.core (.crypto "secp256k1_ec_pubkey_parse failed"))

/-- `Crypto::AddPublicKeys`. -/
def addPublicKeys (publicKeys : List PublicKey) : Except WalletExc PublicKey :=
  orFail (C.addPublicKeys publicKeys) (.core (.crypto "secp256k1_ec_pubkey_combine failed"))

/-- What a partial signature was made of, apart from the secret key: the secret nonce and the
challenge. -/
@[ext]
structure PartialSigning where
  /-- The secret nonce. -/
  secretNonce : SecretKey
  /-- The sum of the public keys. -/
  sumPubKeys : PublicKey
  /-- The sum of the public nonces. -/
  sumPubNonces : PublicKey
  /-- The message of the kernel. -/
  message : Hash
deriving DecidableEq

/-- `Crypto::CalculatePartialSignature`. -/
def calculatePartialSignature (secretKey secretNonce : SecretKey)
    (sumPubKeys sumPubNonces : PublicKey) (message : Hash) :
    Except WalletExc (CompactSignature × PartialSigning) := do
  let signature ← orFail
    (C.calculatePartialSignature secretKey secretNonce sumPubKeys sumPubNonces message)
    (.core (.crypto "secp256k1_aggsig_sign_single failed"))
  .ok (signature, ⟨secretNonce, sumPubKeys, sumPubNonces, message⟩)

/-- `SigningKeys`. -/
structure SigningKeys where
  /-- The secret key. -/
  secretKey : SecretKey
  /-- The public key. -/
  publicKey : PublicKey
  /-- The secret nonce. -/
  secretNonce : SecretKey
  /-- The public nonce. -/
  publicNonce : PublicKey

/-- `SlateUtil::CalculateSigningKeys`: the key is the blinding factors of the outputs less those
of the inputs and the offset. -/
def calculateSigningKeys (inputs outputs : List OutputDataEntity) (txOffset : BlindingFactor)
    (secretNonce : SecretKey) : Except WalletExc SigningKeys := do
  let inputBFSum ← addBlindingFactors G (inputs.map OutputDataEntity.blindingFactor) []
  let outputBFSum ← addBlindingFactors G (outputs.map OutputDataEntity.blindingFactor) []
  let totalBlindExcess ← addBlindingFactors G [outputBFSum] [inputBFSum]
  let secretKey ← addBlindingFactors G [totalBlindExcess] [txOffset]
  let publicKey ← calculatePublicKey C secretKey
  let publicNonce ← calculatePublicKey C secretNonce
  .ok ⟨secretKey, publicKey, secretNonce, publicNonce⟩

namespace SignatureUtil

/-- `SignatureUtil::AggregateSignatures`. -/
def aggregateSignatures (slate : Slate) : Except WalletExc Signature := do
  let sumPubNonces ← slate.calculateTotalNonce C
  orFail (C.aggregateSignatures (slate.sigs.filterMap SlateSignature.partialOpt) sumPubNonces)
    (.wallet "Failed to aggregate signatures for Slate")

/-- `SignatureUtil::VerifyPartialSignatures`: a participant that has not signed is passed over. -/
def verifyPartialSignatures (sigs : List SlateSignature) (message : Hash) :
    Except WalletExc Bool := do
  let sumPubKeys ← addPublicKeys C (sigs.map SlateSignature.excess)
  let sumPubNonces ← addPublicKeys C (sigs.map SlateSignature.nonce)
  .ok (sigs.all fun sig =>
    match sig.partialOpt with
    | some partialSignature =>
      C.verifyPartialSignature partialSignature sig.excess sumPubKeys sumPubNonces message
    | none => true)

end SignatureUtil

/-! ### Outputs and transactions -/

/-- `WalletImpl::CreateBlindedOutput`. -/
def createBlindedOutput (amount : UInt64) (keyChainPath : KeyChainPath) (walletTxId : UInt32) :
    Except WalletExc OutputDataEntity := do
  let blindingFactor ← orFail (W.keyChain.derivePrivateKey keyChainPath amount)
    (.core (.crypto "secp256k1_blind_switch failed"))
  let commitment ← callCore (commitBlinded G amount.toNat blindingFactor)
  let rangeProof ← orFail
    (W.keyChain.generateRangeProof keyChainPath amount commitment blindingFactor)
    (.core (.crypto "secp256k1_bulletproof_rangeproof_prove failed"))
  .ok {
    keyChainPath := keyChainPath
    blindingFactor := blindingFactor
    output := ⟨.default, commitment, rangeProof⟩
    amount := amount
    status := .noConfirmations
    mmrIndexOpt := none
    blockHeightOpt := none
    walletTxIdOpt := some walletTxId }

/-- The amount of output `i` of `n`: the first one gets the remainder as well. -/
def coinAmount (totalAmount : UInt64) (n : UInt8) (i : ℕ) : UInt64 :=
  totalAmount / n.toUInt64 + if i = 0 then totalAmount % n.toUInt64 else 0

/-- `OutputBuilder::CreateOutputs`. -/
def createOutputs (db : WalletDB) (totalAmount : UInt64) (walletTxId : UInt32)
    (numOutputs : UInt8) : Except WalletExc (List OutputDataEntity × WalletDB) :=
  (List.range numOutputs.toNat).foldlM
    (fun (acc : List OutputDataEntity × WalletDB) i => do
      let (keyChainPath, db) := acc.2.getNextChildPath userPath
      let output ← createBlindedOutput G W (coinAmount totalAmount numOutputs i) keyChainPath
        walletTxId
      .ok (acc.1 ++ [output], db))
    ([], db)

/-- `TransactionBuilder::BuildTransaction`: the lists are sorted here, and again when the body is
made. -/
def buildTransaction (inputs : List TransactionInput) (outputs : List TransactionOutput)
    (kernel : TransactionKernel) (transactionOffset : BlindingFactor) : Transaction :=
  ⟨transactionOffset,
    W.bodySort.body (W.bodySort.inputs inputs) (W.bodySort.outputs outputs)
      (W.bodySort.kernels [kernel])⟩

/-- The sum of amounts, in 64 bits. -/
def totalAmount (coins : List OutputDataEntity) : UInt64 :=
  coins.foldl (fun sum coin => sum + coin.amount) 0

/-- The inputs and outputs of the sender, added to a slate. -/
def addCoins (inputs outputs : List OutputDataEntity) (slate : Slate) : Slate :=
  outputs.foldl
    (fun slate output =>
      slate.addOutput output.getFeatures output.getCommitment output.output.rangeProof)
    (inputs.foldl (fun slate input => slate.addInput input.getFeatures input.getCommitment) slate)

/-! ### Sending -/

/-- `ESelectionStrategy`. -/
inductive ESelectionStrategy
  | smallest
  | fewestInputs
  | custom
  | all
deriving DecidableEq

/-- `FeeUtil::CalculateFee`, in 64 bits. -/
def calculateFee (feeBase : UInt64) (numInputs numOutputs numKernels : ℕ) : UInt64 :=
  feeBase * UInt64.ofNat (Consensus.calculateWeightV5 numInputs numOutputs numKernels)

namespace CoinSelection

/-- The loop of `CoinSelection::SelectUsingSmallestInputs` and
`CoinSelection::SelectUsingFewestInputs`: take coins until they pay for the amount and for the fee
of what was taken. -/
def takeCoins (amount feeBase : UInt64) (numOutputs numKernels : ℕ) :
    List OutputDataEntity → UInt64 → List OutputDataEntity →
      Except WalletExc (List OutputDataEntity)
  | [], _, _ => .error .insufficientFunds
  | coin :: coins, amountFound, selectedCoins =>
    let amountFound := amountFound + coin.amount
    let selectedCoins := selectedCoins ++ [coin]
    let fee := calculateFee feeBase selectedCoins.length numOutputs numKernels
    if amount + fee ≤ amountFound then .ok selectedCoins
    else takeCoins amount feeBase numOutputs numKernels coins amountFound selectedCoins

/-- `CoinSelection::SelectUsingSmallestInputs`. -/
def selectUsingSmallestInputs (availableCoins : List OutputDataEntity) (amount feeBase : UInt64)
    (numOutputs numKernels : ℕ) : Except WalletExc (List OutputDataEntity) :=
  takeCoins amount feeBase numOutputs numKernels (W.coinSort.sort availableCoins) 0 []

/-- `CoinSelection::SelectUsingFewestInputs`: the sort runs over the reversed list. -/
def selectUsingFewestInputs (availableCoins : List OutputDataEntity) (amount feeBase : UInt64)
    (numOutputs numKernels : ℕ) : Except WalletExc (List OutputDataEntity) :=
  takeCoins amount feeBase numOutputs numKernels
    (W.coinSort.sort availableCoins.reverse).reverse 0 []

/-- `CoinSelection::SelectUsingAllInputs`: what was found is not compared with the amount. -/
def selectUsingAllInputs (availableCoins : List OutputDataEntity) (amount feeBase : UInt64)
    (numOutputs numKernels : ℕ) : Except WalletExc (List OutputDataEntity) :=
  let fee := calculateFee feeBase availableCoins.length numOutputs numKernels
  if amount < amount + fee then .ok availableCoins else .error .insufficientFunds

/-- `CoinSelection::SelectUsingCustomInputs`. -/
def selectUsingCustomInputs (availableCoins : List OutputDataEntity) (amount feeBase : UInt64)
    (inputs : List Commitment) (numOutputs numKernels : ℕ) :
    Except WalletExc (List OutputDataEntity) :=
  let selectedCoins := availableCoins.filter fun coin => coin.getCommitment ∈ inputs
  let fee := calculateFee feeBase selectedCoins.length numOutputs numKernels
  if amount + fee ≤ totalAmount selectedCoins then .ok selectedCoins
  else .error .insufficientFunds

/-- `CoinSelection::SelectCoinsToSpend`. -/
def selectCoinsToSpend (availableCoins : List OutputDataEntity) (amount feeBase : UInt64)
    (strategy : ESelectionStrategy) (inputs : List Commitment) (numOutputs numKernels : ℕ) :
    Except WalletExc (List OutputDataEntity) :=
  match strategy with
  | .custom => selectUsingCustomInputs availableCoins amount feeBase inputs numOutputs numKernels
  | .smallest => selectUsingSmallestInputs G W availableCoins amount feeBase numOutputs numKernels
  | .fewestInputs =>
    selectUsingFewestInputs G W availableCoins amount feeBase numOutputs numKernels
  | .all => selectUsingAllInputs availableCoins amount feeBase numOutputs numKernels

end CoinSelection

/-- `SendCriteria`; without an amount, everything is sent. -/
structure SendCriteria where
  /-- The amount. -/
  amountOpt : Option UInt64
  /-- The fee for a unit of weight. -/
  feeBase : UInt64
  /-- The number of change outputs. -/
  numOutputs : UInt8
  /-- The address of the receiver, where it is one that payment proofs can be made for. -/
  addressOpt : Option Ed25519PublicKey
  /-- The strategy. -/
  strategy : ESelectionStrategy
  /-- The coins of the strategy `CUSTOM`. -/
  inputs : List Commitment
  /-- The version of the slate. -/
  slateVersion : UInt16

/-- What `Send` draws at random. -/
structure SendDraws where
  /-- The identifier of the slate. -/
  slateId : SlateId
  /-- The offset. -/
  transactionOffset : BlindingFactor
  /-- The secret nonce. -/
  secretNonce : SecretKey

namespace SendSlateBuilder

theorem length_zeros_33 : (List.replicate 33 (0 : UInt8)).length = 33 := List.length_replicate

theorem length_zeros_64 : (List.replicate 64 (0 : UInt8)).length = 64 := List.length_replicate

/-- The excess of a transaction that is not signed yet. -/
def emptyExcess : Commitment := ⟨List.replicate 33 0, length_zeros_33⟩

/-- Its signature. -/
def emptySignature : Signature := ⟨List.replicate 64 0, length_zeros_64⟩

/-- `SendSlateBuilder::BuildWalletTx`. -/
def buildWalletTx (walletTxId : UInt32) (txOffset : BlindingFactor)
    (inputs outputs : List OutputDataEntity) (slate : Slate) : WalletTx where
  walletTxId := walletTxId
  type := .sendingStarted
  slateIdOpt := some slate.slateId
  confirmedHeightOpt := none
  amountCredited := totalAmount outputs
  amountDebited := totalAmount inputs
  feeOpt := some slate.fee.reload
  transactionOpt := some (buildTransaction G W
    (inputs.map fun input => ⟨input.getFeatures, input.getCommitment⟩)
    (outputs.map OutputDataEntity.output)
    ⟨slate.kernelFeatures, slate.fee.reload, slate.getLockHeight, emptyExcess, emptySignature⟩
    txOffset)
  paymentProofOpt := slate.proofOpt

/-- `SendSlateBuilder::UpdateDatabase`. -/
def updateDatabase (db : WalletDB) (slate : Slate) (context : SlateContextEntity)
    (changeOutputs coinsToLock : List OutputDataEntity) (walletTx : WalletTx) :
    Except WalletExc WalletDB := do
  let db ← db.saveSlateContext slate.slateId context
  .ok ((((db.saveSlate slate).addOutputs changeOutputs).addOutputs
    (coinsToLock.map fun coin => coin.setStatus .locked)).addTransaction walletTx)

/-- The slate of `SendSlateBuilder::Build`, without its inputs and outputs. -/
def newSlate (slateId : SlateId) (slateVersion : UInt16) (blockHeight : UInt64)
    (amountToSend fee : UInt64) (proofOpt : Option SlatePaymentProof) (keys : SigningKeys)
    (transactionOffset : BlindingFactor) : Slate where
  slateId := slateId
  stage := .standardSent
  version := slateVersion
  blockVersion := UInt16.ofNat (Consensus.getHeaderVersion G.env blockHeight.toNat)
  numParticipants := 2
  ttl := 0
  kernelFeatures := .defaultKernel
  featureArgsOpt := none
  offset := transactionOffset
  amount := amountToSend
  fee := RawFee.from fee
  sigs := [⟨keys.publicKey, keys.publicNonce, none⟩]
  commitments := []
  proofOpt := proofOpt

/-- `SendSlateBuilder::Build`. -/
def build (db : WalletDB) (chainHeight : UInt64) (amountToSend fee : UInt64)
    (numChangeOutputs : UInt8) (inputs : List OutputDataEntity)
    (addressOpt : Option Ed25519PublicKey) (slateVersion : UInt16) (draws : SendDraws) :
    Except WalletExc (Slate × WalletDB) := do
  let blockHeight := chainHeight + 1
  let (walletTxId, db) := db.getNextTransactionId
  let (changeOutputs, db) ← (
    if 0 < numChangeOutputs then
      createOutputs G W db (totalAmount inputs - (amountToSend + fee)) walletTxId numChangeOutputs
    else .ok ([], db))
  let keys ← calculateSigningKeys G C inputs changeOutputs draws.transactionOffset
    draws.secretNonce
  let proofOpt := addressOpt.map fun receiverAddress =>
    ⟨(W.keyChain.deriveED25519Key db.currentAddressIndex).publicKey, receiverAddress, none⟩
  let slate := addCoins inputs changeOutputs
    (newSlate G draws.slateId slateVersion blockHeight amountToSend fee proofOpt keys
      draws.transactionOffset)
  let walletTx := buildWalletTx G W walletTxId draws.transactionOffset inputs changeOutputs slate
  let db ← updateDatabase db slate ⟨keys.secretKey, keys.secretNonce, inputs, changeOutputs⟩
    changeOutputs inputs walletTx
  .ok (slate, db)

/-- What `SendSlateBuilder::BuildSendSlate` decides before it builds: the coins, the amount that
is sent and the fee. An amount or a fee that does not fit wraps around. -/
def planSend (availableCoins : List OutputDataEntity) (criteria : SendCriteria) :
    Except WalletExc (List OutputDataEntity × UInt64 × UInt64) := do
  let sendEntireBalance := criteria.amountOpt.isNone
  let amount := criteria.amountOpt.getD 0
  let numChangeOutputs := if sendEntireBalance then 0 else criteria.numOutputs
  let totalNumOutputs := 1 + numChangeOutputs
  let inputs ← (
    if sendEntireBalance then .ok availableCoins
    else CoinSelection.selectCoinsToSpend G W availableCoins amount criteria.feeBase
      criteria.strategy criteria.inputs totalNumOutputs.toNat 1)
  let inputTotal := totalAmount inputs
  let fee := calculateFee criteria.feeBase inputs.length totalNumOutputs.toNat 1
  let amountToSend := if sendEntireBalance then inputTotal - fee else amount
  -- Without change, whatever is left over goes to the fee.
  let fee := if numChangeOutputs = 0 then inputTotal - amountToSend else fee
  .ok (inputs, amountToSend, fee)

/-- `SendSlateBuilder::BuildSendSlate`, on the coins that are available. -/
def buildSendSlate (db : WalletDB) (availableCoins : List OutputDataEntity) (chainHeight : UInt64)
    (criteria : SendCriteria) (draws : SendDraws) : Except WalletExc (Slate × WalletDB) := do
  let (inputs, amountToSend, fee) ← planSend G W availableCoins criteria
  build G C W db chainHeight amountToSend fee
    (if criteria.amountOpt.isNone then 0 else criteria.numOutputs) inputs criteria.addressOpt
    criteria.slateVersion draws

end SendSlateBuilder

/-! ### Receiving -/

/-- What `Receive` draws at random. -/
structure ReceiveDraws where
  /-- The part of the offset. -/
  receiverOffset : BlindingFactor
  /-- The secret nonce. -/
  secretNonce : SecretKey

/-- What a call that signs gives: the slate, what the signature was made of, and the database. -/
structure SignedSlate where
  /-- The slate. -/
  slate : Slate
  /-- The signature. -/
  signing : PartialSigning
  /-- The database. -/
  db : WalletDB

/-- The message of a payment proof. -/
def paymentProofMessage (amount : UInt64) (kernelCommitment : Commitment)
    (senderAddress : Ed25519PublicKey) : List UInt8 :=
  beBytes 8 amount.toNat ++ kernelCommitment.bytes ++ senderAddress.bytes

namespace ReceiveSlateBuilder

/-- `ReceiveSlateBuilder::VerifySlateStatus`. -/
def verifySlateStatus (db : WalletDB) (slateId : SlateId) : Bool :=
  match db.getTransactionBySlateId slateId with
  | some walletTx => walletTx.type = .receivedCanceled ∨ walletTx.type = .sendingStarted
  | none => true

/-- `ReceiveSlateBuilder::BuildSignature`, on the slate to which the receiver was added. -/
def buildSignature (slate : Slate) (keys : SigningKeys) :
    Except WalletExc (SlateSignature × PartialSigning) := do
  let kernelMessage := slate.kernelMessage G
  let sumPubKeys ← slate.calculateTotalExcess C
  let sumPubNonces ← slate.calculateTotalNonce C
  let (partialSignature, signing) ← calculatePartialSignature C keys.secretKey keys.secretNonce
    sumPubKeys sumPubNonces kernelMessage
  let signature : SlateSignature := ⟨keys.publicKey, keys.publicNonce, some partialSignature⟩
  let verified ← SignatureUtil.verifyPartialSignatures C (slate.sigs.dropLast ++ [signature])
    kernelMessage
  demand verified (.wallet "Failed to verify signatures.")
  .ok (signature, signing)

/-- `WalletImpl::FindAddressIndex`. -/
def findAddressIndex (publicKey : Ed25519PublicKey) (currentIndex : ℕ) : Except WalletExc ℕ :=
  orFail
    ((List.range (currentIndex + 1)).find? fun index =>
      publicKey = (W.keyChain.deriveED25519Key index).publicKey)
    (.wallet "Failed to validate Public Key")

/-- `ReceiveSlateBuilder::UpdatePaymentProof`. -/
def updatePaymentProof (slate : Slate) (currentIndex : ℕ) : Except WalletExc Slate :=
  match slate.proofOpt with
  | none => .ok slate
  | some proof => do
    demand (W.hasTorAddress = true) (.wallet "")
    let addressIndex ← findAddressIndex G W proof.receiverAddress currentIndex
    let totalExcess ← slate.calculateTotalExcess C
    let kernelCommitment ← toCommitment C totalExcess
    let signature := C.signED25519 (W.keyChain.deriveED25519Key addressIndex).secretKey
      (paymentProofMessage slate.amount kernelCommitment proof.senderAddress)
    .ok { slate with proofOpt := some { proof with receiverSignatureOpt := some signature } }

/-- `ReceiveSlateBuilder::UpdateDatabase`. -/
def updateDatabase (db : WalletDB) (slate : Slate) (outputData : OutputDataEntity)
    (walletTxId : UInt32) : WalletDB :=
  (((db.addOutputs [outputData]).addTransaction {
    walletTxId := walletTxId
    type := .receivingInProgress
    slateIdOpt := some slate.slateId
    confirmedHeightOpt := none
    amountCredited := slate.amount
    amountDebited := 0
    feeOpt := some slate.fee.reload
    transactionOpt := none
    paymentProofOpt := slate.proofOpt }).saveSlate slate)

/-- `ReceiveSlateBuilder::AddReceiverData`. -/
def addReceiverData (db : WalletDB) (sendSlate : Slate) (draws : ReceiveDraws) :
    Except WalletExc SignedSlate := do
  demand (verifySlateStatus db sendSlate.slateId) (.wallet "Failed to verify received slate.")
  let (keyChainPath, db) := db.getNextChildPath userPath
  let (walletTxId, db) := db.getNextTransactionId
  let outputData ← createBlindedOutput G W sendSlate.amount keyChainPath walletTxId
  let keys ← calculateSigningKeys G C [] [outputData] draws.receiverOffset draws.secretNonce
  let offset ← addBlindingFactors G [sendSlate.offset, draws.receiverOffset] []
  -- The receiver signs over the keys of both parties …
  let bothSigned : Slate :=
    { sendSlate with
      stage := .standardReceived
      offset := offset
      sigs := sendSlate.sigs ++ [⟨keys.publicKey, keys.publicNonce, none⟩] }
  let (signature, signing) ← buildSignature G C bothSigned keys
  let withOutput := bothSigned.addOutput outputData.getFeatures outputData.getCommitment
    outputData.output.rangeProof
  let proved ← updatePaymentProof G C W withOutput db.currentAddressIndex
  -- … and sends back its own only.
  let receiveSlate : Slate := { proved with sigs := [signature] }
  .ok ⟨receiveSlate, signing, updateDatabase db receiveSlate outputData walletTxId⟩

end ReceiveSlateBuilder

/-! ### Finalizing -/

/-- What `Finalize` gives. -/
structure FinalizedSlate extends SignedSlate where
  /-- The transaction. -/
  transaction : Transaction

namespace FinalizeSlateBuilder

/-- The slate of `FinalizeSlateBuilder::Finalize` before it is signed: what the receiver sent, with
the inputs, the outputs and the omitted fields of the sender. -/
def completeSlate (rcvSlate sendSlate : Slate) (context : SlateContextEntity)
    (offset : BlindingFactor) : Slate :=
  addCoins context.inputs context.outputs
    { rcvSlate with
      stage := .standardFinalized
      offset := offset
      amount := sendSlate.amount
      fee := sendSlate.fee
      kernelFeatures := sendSlate.kernelFeatures
      featureArgsOpt := sendSlate.featureArgsOpt
      ttl := sendSlate.ttl }

/-- The offset of the response, or else that of the wallet. -/
def finalOffset (rcvSlate : Slate) (walletTx : WalletTx) : Except WalletExc BlindingFactor :=
  if rcvSlate.offset.isNull then
    (orFail walletTx.transactionOpt .badOptionalAccess).map Transaction.offset
  else .ok rcvSlate.offset

/-- The participants of a slate, the sender added unless its key is there. -/
def addParticipant (context : SlateContextEntity) (excess : PublicKey)
    (sigs : List SlateSignature) : Except WalletExc (List SlateSignature) :=
  if excess ∈ sigs.map SlateSignature.excess then .ok sigs
  else do
    let nonce ← calculatePublicKey C context.secretNonce
    .ok (sigs ++ [⟨excess, nonce, none⟩])

/-- The first participant with a key gets a partial signature. -/
def setPartial (excess : PublicKey) (partialSignature : CompactSignature) :
    List SlateSignature → List SlateSignature
  | [] => []
  | sig :: sigs =>
    if sig.excess = excess then { sig with partialOpt := some partialSignature } :: sigs
    else sig :: setPartial excess partialSignature sigs

/-- `FinalizeSlateBuilder::AddPartialSignature`. -/
def addPartialSignature (context : SlateContextEntity) (slate : Slate) (kernelMessage : Hash) :
    Except WalletExc (Slate × PartialSigning) := do
  let excess ← calculatePublicKey C context.secretKey
  let sigs ← addParticipant C context excess slate.sigs
  let slate : Slate := { slate with sigs := sigs }
  let sumPubKeys ← slate.calculateTotalExcess C
  let sumPubNonces ← slate.calculateTotalNonce C
  let (partialSignature, signing) ← calculatePartialSignature C context.secretKey
    context.secretNonce sumPubKeys sumPubNonces kernelMessage
  let slate : Slate := { slate with sigs := setPartial excess partialSignature slate.sigs }
  let verified ← SignatureUtil.verifyPartialSignatures C slate.sigs kernelMessage
  demand verified (.wallet "Failed to verify partial signature for Slate")
  .ok (slate, signing)

/-- `FinalizeSlateBuilder::VerifyPaymentProofs`. -/
def verifyPaymentProofs (walletTx : WalletTx) (slate : Slate) (finalExcess : Commitment) : Bool :=
  match walletTx.paymentProofOpt with
  | none => true
  | some origProof =>
    match slate.proofOpt with
    | none => false
    | some newProof =>
      match newProof.receiverSignatureOpt with
      | none => false
      | some signature =>
        decide (origProof.receiverAddress = newProof.receiverAddress) &&
          decide (origProof.senderAddress = newProof.senderAddress) &&
          C.verifyED25519 newProof.receiverAddress signature
            (paymentProofMessage slate.amount finalExcess newProof.senderAddress)

/-- `FinalizeSlateBuilder::BuildTransaction`. The fee is the one that was read with the slate of
the sender, so it is within its bits. -/
def buildTransaction (slate : Slate) (kernelMessage : Hash) (finalExcess : Commitment)
    (chainHeight : UInt64) : Except WalletExc (Option Transaction) := do
  let aggSignature ← SignatureUtil.aggregateSignatures C slate
  let totalExcess ← slate.calculateTotalExcess C
  let kernel : TransactionKernel :=
    ⟨slate.kernelFeatures, slate.fee.reload, slate.getLockHeight, finalExcess, aggSignature⟩
  let transaction := GrinPlusPlus.buildTransaction G W slate.getInputs slate.getOutputs kernel
    slate.offset
  .ok (
    if C.verifyAggregateSignature aggSignature totalExcess kernelMessage = false then none
    else if TxBodyValidator.batchVerify G [kernel] = false then none
    else
      match TransactionValidator.validate G transaction (chainHeight + 1).toNat with
      | .ok _ => some transaction
      | .error _ => none)

/-- `FinalizeSlateBuilder::UpdateDatabase`. -/
def updateDatabase (db : WalletDB) (walletTx : WalletTx) (slate : Slate) : WalletDB :=
  (db.saveSlate slate).addTransaction walletTx

/-- `FinalizeSlateBuilder::Finalize`. -/
def finalize (db : WalletDB) (rcvSlate : Slate) (chainHeight : UInt64) :
    Except WalletExc FinalizedSlate := do
  let sendSlate ← orFail (db.loadSlate rcvSlate.slateId .standardSent)
    (.wallet "Failed to load slate.")
  let walletTx ← orFail (db.getTransactionBySlateId rcvSlate.slateId)
    (.wallet "Transaction not found")
  let context ← orFail (db.loadSlateContext rcvSlate.slateId)
    (.wallet "Failed to load slate context.")
  let offset ← finalOffset rcvSlate walletTx
  let completed := completeSlate rcvSlate sendSlate context offset
  let kernelMessage := completed.kernelMessage G
  let (slate, signing) ← addPartialSignature C context completed kernelMessage
  let totalExcess ← slate.calculateTotalExcess C
  let finalExcess ← toCommitment C totalExcess
  demand (verifyPaymentProofs C walletTx slate finalExcess = true)
    (.wallet "Failed to verify payment proof.")
  let transactionOpt ← buildTransaction G C W slate kernelMessage finalExcess chainHeight
  let transaction ← orFail transactionOpt (.wallet "Failed to verify finalized transaction.")
  let walletTx := (walletTx.setType .sendingFinalized).setTransaction transaction
  .ok ⟨⟨slate, signing, updateDatabase db walletTx slate⟩, transaction⟩

end FinalizeSlateBuilder

end Builders

end GrinPlusPlus
