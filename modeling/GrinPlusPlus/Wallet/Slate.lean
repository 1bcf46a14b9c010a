import GrinPlusPlus.Core.Validation

/-!
# Slates

The values that two wallets pass to each other until they have a transaction, and the functions
of `Crypto` that only wallets call. As for `GrinPlusPlus.Global`, what those functions compute is
left open (`GrinPlusPlus.Crypto`), and a theorem that needs a property of them says so.

A slate collects the commitments of the transaction, inputs and outputs in one list: a commitment
with a range proof is an output, one without is an input. `GrinPlusPlus.Slate.addInput` and
`GrinPlusPlus.Slate.addOutput` leave a commitment alone that is in the list already, whatever it
is there as; the lemmas at the end say what this makes of a list of inputs and a list of outputs
added one after the other.
-/

namespace GrinPlusPlus

/-! ### Keys, signatures and identifiers -/

/-- A public key, compressed. -/
abbrev PublicKey := CBigInteger 33

/-- A secret key. -/
abbrev SecretKey := CBigInteger 32

/-- A signature in its compact form. -/
abbrev CompactSignature := CBigInteger 64

/-- The identifier of a slate, a random UUID. -/
abbrev SlateId := CBigInteger 16

/-- `ed25519_public_key_t`, the address of a wallet. -/
abbrev Ed25519PublicKey := CBigInteger 32

/-- `ed25519_signature_t`. -/
abbrev Ed25519Signature := CBigInteger 64

/-- `ed25519_keypair_t`. -/
structure Ed25519KeyPair where
  /-- The secret half. -/
  secretKey : CBigInteger 64
  /-- The address. -/
  publicKey : Ed25519PublicKey
deriving DecidableEq

/-- The functions of `Crypto` and `ED25519` that the wallet calls and the node does not. -/
structure Crypto where
  /-- `Crypto::CalculatePublicKey`. -/
  calculatePublicKey : SecretKey → Option PublicKey
  /-- `Crypto::AddPublicKeys`. -/
  addPublicKeys : List PublicKey → Option PublicKey
  /-- `Crypto::ToCommitment`. -/
  toCommitment : PublicKey → Option Commitment
  /-- `Crypto::CalculatePartialSignature`, of a secret key and a secret nonce, the sums of the
  public keys and of the public nonces, and a message. -/
  calculatePartialSignature :
    SecretKey → SecretKey → PublicKey → PublicKey → Hash → Option CompactSignature
  /-- `Crypto::VerifyPartialSignature`, with a public key, the sums of the public keys and of the
  public nonces, and a message. -/
  verifyPartialSignature :
    CompactSignature → PublicKey → PublicKey → PublicKey → Hash → Bool
  /-- `Crypto::AggregateSignatures`, with the sum of the public nonces. -/
  aggregateSignatures : List CompactSignature → PublicKey → Option Signature
  /-- `Crypto::VerifyAggregateSignature`. -/
  verifyAggregateSignature : Signature → PublicKey → Hash → Bool
  /-- `ED25519::Sign`. -/
  signED25519 : CBigInteger 64 → List UInt8 → Ed25519Signature
  /-- `ED25519::VerifySignature`. -/
  verifyED25519 : Ed25519PublicKey → Ed25519Signature → List UInt8 → Bool

/-! ### Exceptions -/

/-- How a call of the wallet can end without a result. -/
inductive WalletExc
  | wallet (message : String)
  | store (message : String)
  | insufficientFunds
  | badOptionalAccess
  | core (e : Exc)
deriving DecidableEq

/-- A value that is not there, turned into an exception. -/
def orFail {α : Type} (x : Option α) (e : WalletExc) : Except WalletExc α :=
  match x with
  | some a => .ok a
  | none => .error e

/-- A check of the wallet. -/
def demand (c : Prop) [Decidable c] (e : WalletExc) : Except WalletExc Unit :=
  if c then .ok () else .error e

/-- A call of the code that the wallet shares with the node. -/
def callCore {α : Type} (x : Except Exc α) : Except WalletExc α :=
  match x with
  | .ok a => .ok a
  | .error e => .error (.core e)

theorem orFail_eq_ok_iff {α : Type} {x : Option α} {e : WalletExc} {a : α} :
    orFail x e = .ok a ↔ x = some a := by
  cases x <;> simp [orFail]

theorem callCore_eq_ok_iff {α : Type} {x : Except Exc α} {a : α} :
    callCore x = .ok a ↔ x = .ok a := by
  cases x <;> simp [callCore]

/-! ### Fees -/

/-- A fee as it stands in memory: `Fee::From` and the constructors take any number, only the
serialised form has four bits of shift and forty of fee. -/
structure RawFee where
  /-- The shift. -/
  shift : UInt8
  /-- The fee. -/
  fee : UInt64
deriving DecidableEq

/-- `Fee::From`. -/
def RawFee.from (rawFee : UInt64) : RawFee := ⟨0, rawFee⟩

/-- `Fee::Serialize`: the fee loses what is above its forty bits. -/
def RawFee.serialize (f : RawFee) : List UInt8 :=
  beBytes 2 0 ++ [f.shift] ++ beBytes 5 f.fee.toNat

theorem toNat_and_15_lt (n : UInt8) : (n &&& 0x0f).toNat < 16 := by
  rw [UInt8.toNat_and]
  exact Nat.lt_of_le_of_lt Nat.and_le_right (by decide)

theorem toNat_mod_two_pow_40_lt (n : UInt64) : (n % 0x10000000000).toNat < 2 ^ 40 := by
  rw [UInt64.toNat_mod]
  exact Nat.mod_lt _ (by decide)

/-- `Fee::Deserialize` of `Fee::Serialize`. -/
def RawFee.reload (f : RawFee) : Fee where
  shift := f.shift &&& 0x0f
  fee := f.fee % 0x10000000000
  shift_lt := toNat_and_15_lt f.shift
  fee_lt := toNat_mod_two_pow_40_lt f.fee

/-- A fee that was read, in memory. -/
def Fee.toRaw (f : Fee) : RawFee := ⟨f.shift, f.fee⟩

/-- `TransactionKernel::GetSignatureMessage` of its parts. -/
def signatureMessage (G : Global) (features : KernelFeatures) (fee : RawFee)
    (lockHeight : UInt64) : Hash :=
  G.blake2b (.bytes (
    features.value ::
      ((if features = .coinbaseKernel then [] else fee.serialize) ++
        (if features = .heightLocked then beBytes 8 lockHeight.toNat else []) ++
        (if features = .noRecentDuplicate then beBytes 2 lockHeight.toNat else []))))

/-! ### Slates -/

/-- `SlateSignature`. -/
structure SlateSignature where
  /-- The public key of the participant. -/
  excess : PublicKey
  /-- The public nonce of the participant. -/
  nonce : PublicKey
  /-- The partial signature, once the participant signed. -/
  partialOpt : Option CompactSignature
deriving DecidableEq

/-- `SlateCommitment`: an output if it has a range proof, else an input. -/
structure SlateCommitment where
  /-- The features. -/
  features : OutputFeatures
  /-- The commitment. -/
  commitment : Commitment
  /-- The range proof of an output. -/
  proofOpt : Option RangeProof
deriving DecidableEq

/-- `SlateFeatureArgs`. -/
structure SlateFeatureArgs where
  /-- The lock height. -/
  lockHeightOpt : Option UInt64
deriving DecidableEq

/-- `ESlateStage`; `NONE` is where a search for the latest stage of a slate starts. -/
inductive ESlateStage
  | none
  | standardSent
  | standardReceived
  | standardFinalized
  | invoiceSent
  | invoicePaid
  | invoiceFinalized
deriving DecidableEq

/-- `SlatePaymentProof`. -/
structure SlatePaymentProof where
  /-- The address of the sender. -/
  senderAddress : Ed25519PublicKey
  /-- The address of the receiver. -/
  receiverAddress : Ed25519PublicKey
  /-- The signature of the receiver, once there is one. -/
  receiverSignatureOpt : Option Ed25519Signature
deriving DecidableEq

/-- `Slate`. -/
structure Slate where
  /-- The identifier. -/
  slateId : SlateId
  /-- How far the transaction is. -/
  stage : ESlateStage
  /-- The version of the format. -/
  version : UInt16
  /-- The version of the block headers at the time. -/
  blockVersion : UInt16
  /-- The number of participants. -/
  numParticipants : UInt8
  /-- The height behind which the slate should not be used, or zero. -/
  ttl : UInt64
  /-- The features of the kernel. -/
  kernelFeatures : KernelFeatures
  /-- The arguments of the features. -/
  featureArgsOpt : Option SlateFeatureArgs
  /-- The kernel offset. -/
  offset : BlindingFactor
  /-- The amount that is paid. -/
  amount : UInt64
  /-- The fee. -/
  fee : RawFee
  /-- What the participants need to sign. -/
  sigs : List SlateSignature
  /-- The inputs and outputs. -/
  commitments : List SlateCommitment
  /-- The payment proof. -/
  proofOpt : Option SlatePaymentProof
deriving DecidableEq

/-- `BlindingFactor::IsNull`. -/
def BlindingFactor.isNull (b : BlindingFactor) : Bool :=
  b.bytes.all (· = 0)

namespace Slate

/-- `Slate::GetLockHeight`. -/
def getLockHeight (s : Slate) : UInt64 :=
  match s.featureArgsOpt with
  | some args => args.lockHeightOpt.getD 0
  | none => 0

/-- `Slate::GetInputs`. -/
def getInputs (s : Slate) : List TransactionInput :=
  s.commitments.filterMap fun com =>
    if com.proofOpt.isNone then some ⟨com.features, com.commitment⟩ else none

/-- `Slate::GetOutputs`. -/
def getOutputs (s : Slate) : List TransactionOutput :=
  s.commitments.filterMap fun com =>
    com.proofOpt.map fun proof => ⟨com.features, com.commitment, proof⟩

/-- Attach a range proof to the first entry of a commitment, unless it has one. -/
def attachProof (commitment : Commitment) (proof : RangeProof) :
    List SlateCommitment → List SlateCommitment
  | [] => []
  | com :: coms =>
    if com.commitment = commitment then
      (if com.proofOpt.isNone then { com with proofOpt := some proof } else com) :: coms
    else com :: attachProof commitment proof coms

/-- `Slate::AddInput`. -/
def addInput (s : Slate) (features : OutputFeatures) (commitment : Commitment) : Slate :=
  if commitment ∈ s.commitments.map SlateCommitment.commitment then s
  else { s with commitments := s.commitments ++ [⟨features, commitment, none⟩] }

/-- `Slate::AddOutput`. -/
def addOutput (s : Slate) (features : OutputFeatures) (commitment : Commitment)
    (proof : RangeProof) : Slate :=
  if commitment ∈ s.commitments.map SlateCommitment.commitment then
    { s with commitments := attachProof commitment proof s.commitments }
  else { s with commitments := s.commitments ++ [⟨features, commitment, some proof⟩] }

/-- The slate read back from its serialisation: the fee within its bits, and the arguments that
belong to the features. (A list that is longer than its count can say is not read back; no slate
that the wallet reads back has one.) -/
def reload (s : Slate) : Slate :=
  { s with
    fee := s.fee.reload.toRaw
    featureArgsOpt :=
      if s.kernelFeatures = .defaultKernel then none
      else some ⟨if s.kernelFeatures = .heightLocked then some s.getLockHeight else none⟩ }

section Totals

variable (G : Global) (C : Crypto)

/-- `Slate::CalculateTotalExcess`. -/
def calculateTotalExcess (s : Slate) : Except WalletExc PublicKey :=
  orFail (C.addPublicKeys (s.sigs.map SlateSignature.excess))
    (.core (.crypto "secp256k1_ec_pubkey_combine failed"))

/-- `Slate::CalculateTotalNonce`. -/
def calculateTotalNonce (s : Slate) : Except WalletExc PublicKey :=
  orFail (C.addPublicKeys (s.sigs.map SlateSignature.nonce))
    (.core (.crypto "secp256k1_ec_pubkey_combine failed"))

/-- The message of the kernel of a slate. -/
def kernelMessage (s : Slate) : Hash :=
  signatureMessage G s.kernelFeatures s.fee s.getLockHeight

end Totals

end Slate

end GrinPlusPlus
