import GrinPlusPlus.Core.SmallNet
import GrinPlusPlus.Wallet.WalletManager

/-!
# Small wallets

Instances of `GrinPlusPlus.Crypto` and `GrinPlusPlus.WalletImpl` over the small network, on which
the calls of a wallet can be evaluated. Keys are numbers, and so are points, as the commitments of
the small network are: the public key of `x` is the commitment to nothing with the blinding factor
`x`. Signatures are those of Schnorr, with a challenge that is linear in what it should hash.
-/

namespace GrinPlusPlus

namespace SmallNet

/-! ### Keys and signatures -/

/-- The 32 bytes of a number. -/
def scalar (n : ℕ) : CBigInteger 32 :=
  ⟨beBytes 32 n, length_beBytes 32 n⟩

/-- The sum of blinding factors. -/
def addBlindingFactors (positive negative : List BlindingFactor) : Option BlindingFactor :=
  some (scalar
    ((positive.map number).sum + 2 ^ 256 * negative.length - (negative.map number).sum))

/-- A point, unless it is the one at infinity. -/
def nonzeroPoint (point : PublicKey) : Option PublicKey :=
  if number point = 0 then none else some point

/-- The challenge. -/
def challenge (sumPubKeys sumPubNonces : PublicKey) (message : Hash) : ℕ :=
  3 * number sumPubKeys + number sumPubNonces + 5 * message.value + 1

theorem length_schnorr (m n : ℕ) : (beBytes 32 m ++ beBytes 32 n).length = 64 := by
  rw [List.length_append, length_beBytes, length_beBytes]

/-- The 64 bytes of a signature: the nonce, less the 8 bytes that are zero in all points, and the
response. -/
def schnorr (nonce : PublicKey) (response : ℕ) : CBigInteger 64 :=
  ⟨beBytes 32 (number nonce / 2 ^ 64) ++ beBytes 32 response, length_schnorr _ _⟩

/-- The nonce of a signature. -/
def schnorrNonce (signature : CBigInteger 64) : PublicKey :=
  commitment (2 ^ 64 * (signature.bytes.take 32).foldl (fun m b => 256 * m + b.toNat) 0)

/-- The response of a signature. -/
def schnorrResponse (signature : CBigInteger 64) : ℕ :=
  (signature.bytes.drop 32).foldl (fun m b => 256 * m + b.toNat) 0

/-- The equation of Schnorr. -/
def verifySchnorr (signature : CBigInteger 64) (publicKey sumPubKeys sumPubNonces : PublicKey)
    (message : Hash) : Bool :=
  decide (commitment (2 ^ 64 * schnorrResponse signature) =
    commitment (number (schnorrNonce signature) +
      challenge sumPubKeys sumPubNonces message * number publicKey))

end SmallNet

open SmallNet in
/-- The functions of the wallet on the small network. -/
def smallCrypto : Crypto where
  calculatePublicKey := fun privateKey => nonzeroPoint (commit 0 privateKey)
  addPublicKeys := fun publicKeys => nonzeroPoint (commitment (publicKeys.map number).sum)
  toCommitment := some
  calculatePartialSignature := fun secretKey secretNonce sumPubKeys sumPubNonces message =>
    some (schnorr (commit 0 secretNonce)
      (number secretNonce + challenge sumPubKeys sumPubNonces message * number secretKey))
  verifyPartialSignature := verifySchnorr
  aggregateSignatures := fun signatures sumPubNonces =>
    some (schnorr sumPubNonces (signatures.map schnorrResponse).sum)
  verifyAggregateSignature := fun signature sumPubKeys message =>
    verifySchnorr signature sumPubKeys sumPubKeys (schnorrNonce signature) message
  signED25519 := fun _ _ => signature
  verifyED25519 := fun _ _ _ => true

open SmallNet in
/-- The small network, with a group of blinding factors and the signatures of the kernels. -/
def smallWalletNet : Global :=
  { smallNet .mainnet with
    addBlindingFactors := SmallNet.addBlindingFactors
    verifyKernelSignatures := fun signatures => signatures.all fun (signature, excess, message) =>
      smallCrypto.verifyAggregateSignature signature excess message }

/-! ### Wallets -/

/-- The insertion sort of coins. -/
def CoinSort.insertion : CoinSort where
  sort coins := coins.insertionSort fun a b => a.amount.toNat ≤ b.amount.toNat
  perm coins := List.perm_insertionSort _ coins
  sorted coins := List.pairwise_sort_key (fun coin => coin.amount.toNat) coins

open SmallNet in
/-- The wallet of a seed: the key of a path is the seed and the last index of the path. -/
def smallWallet (seed : ℕ) : WalletImpl smallWalletNet where
  keyChain := {
    derivePrivateKey := fun path _ => some (scalar (seed + (path.getLastD 0).toNat))
    generateRangeProof := fun _ _ _ _ => some rangeProof
    deriveED25519Key := fun index => ⟨signature, scalar (seed + index)⟩ }
  bodySort := BodySort.insertion smallWalletNet
  coinSort := CoinSort.insertion
  minimumConfirmations := 10
  hasTorAddress := true

open SmallNet in
/-- A coin of the small wallet. -/
def smallCoin (amount : UInt64) (blind : ℕ) : OutputDataEntity where
  keyChainPath := userPath
  blindingFactor := scalar blind
  output := ⟨.default, commit amount.toNat (scalar blind), rangeProof⟩
  amount := amount
  status := .noConfirmations
  mmrIndexOpt := none
  blockHeightOpt := some 1
  walletTxIdOpt := none

/-! ### A payment -/

namespace SmallNet

/-- The coin of the sender. -/
def senderCoin : OutputDataEntity := smallCoin 10000000 7

/-- A refresh that finds the coin of the sender, and nothing else, on the chain. -/
def refreshAnswers : RefreshAnswers where
  chainHeight := 1000
  lastConfirmedHeight := 1000
  restoredOutputs := [senderCoin]
  outputLocations commitment := if commitment = senderCoin.getCommitment then some 1 else none

/-- What the sender draws, by two numbers. -/
def sendDraws (slateId secretNonce : ℕ) : SendDraws where
  slateId := ⟨beBytes 16 slateId, length_beBytes 16 slateId⟩
  transactionOffset := scalar 50
  secretNonce := scalar secretNonce

/-- A call that sends from the coin of the sender. -/
def sendCall (draws : SendDraws) : WalletCall :=
  .send
    { amountOpt := some 1000
      feeBase := 1
      numOutputs := 1
      addressOpt := none
      strategy := .smallest
      inputs := []
      slateVersion := 4 }
    draws ⟨some 1000, refreshAnswers, 1000⟩

/-- The database of the sender behind a call on an empty one. -/
def senderDB (draws : SendDraws) : WalletDB :=
  (walletStep smallWalletNet smallCrypto (smallWallet 100) WalletDB.empty (sendCall draws)).2

/-- The response of a new wallet to the last slate of a database. -/
def response (db : WalletDB) (draws : ReceiveDraws) : Option Slate := do
  let slate ← db.slates.getLast?
  match ReceiveSlateBuilder.addReceiverData smallWalletNet smallCrypto (smallWallet 2000)
      WalletDB.empty slate draws with
  | .ok r => some r.slate
  | .error _ => none

end SmallNet

end GrinPlusPlus
