import GrinPlusPlus.Core.Models

/-!
# What the node is built on: hashing, cryptography, consensus rules

Everything the rest of the development takes as given stands in one structure,
`GrinPlusPlus.Global`: the network, the genesis block, and the functions of the libraries
that are not part of the repository – Blake2b, the Pedersen commitments, the range proofs
and the signatures of `secp256k1-zkp` – together with the five cycle verifiers. A theorem
that relies on a property of one of them names it as a hypothesis.

The rest of the file is the part of the repository that only depends on these: the
serialised forms that are hashed (`GrinPlusPlus.TransactionKernel.serialize`, …), the
hashes of headers, inputs, outputs and kernels, and the rules of `Consensus.h`.
-/

namespace GrinPlusPlus

/-! ### The environment -/

/-- `Environment`. -/
inductive Environment
  | mainnet
  | floonet
  | automatedTesting
deriving DecidableEq

/-- What is handed to Blake2b: a string of bytes, or the serialised pair of a position and
a leaf, or of a position and the hashes of two children. The leaves of a mountain range
never have the 64 bytes of two hashes, so the three are kept apart. -/
inductive HashInput
  | bytes (data : List UInt8)
  | leafWithIndex (index : ℕ) (leaf : List UInt8)
  | parentWithIndex (index : ℕ) (left right : Hash)
deriving DecidableEq

/-- The network, its genesis block, and the functions that are not part of the
repository. -/
structure Global where
  /-- `Global::GetEnv`. -/
  env : Environment
  /-- `Global::GetGenesisBlock`. -/
  genesisBlock : FullBlock
  /-- The ticks of `std::chrono::system_clock` in a second. -/
  clockTicksPerSecond : ℕ
  /-- How many passes of a loop without a bound of its own are followed; a run that needs
  more of them ends with `GrinPlusPlus.Exc.hang`. -/
  loopBound : ℕ
  /-- `Hasher::Blake2b`. -/
  blake2b : HashInput → Hash
  /-- `Crypto::CommitTransparent`. -/
  commitTransparent : ℕ → Option Commitment
  /-- `Crypto::CommitBlinded`. -/
  commitBlinded : ℕ → BlindingFactor → Option Commitment
  /-- `Crypto::AddCommitments`, of the positive and the negative commitments. -/
  addCommitments : List Commitment → List Commitment → Option Commitment
  /-- `Crypto::AddBlindingFactors`. -/
  addBlindingFactors : List BlindingFactor → List BlindingFactor → Option BlindingFactor
  /-- `Crypto::VerifyRangeProofs`. -/
  verifyRangeProofs : List (Commitment × RangeProof) → Bool
  /-- `Crypto::VerifyKernelSignatures`. -/
  verifyKernelSignatures : List (Signature × Commitment × Hash) → Bool
  /-- `Cuckaroo::Validate`. -/
  cuckaroo : BlockHeader → Bool
  /-- `Cuckarood::Validate`. -/
  cuckarood : BlockHeader → Bool
  /-- `Cuckaroom::Validate`. -/
  cuckaroom : BlockHeader → Bool
  /-- `Cuckarooz::Validate`. -/
  cuckarooz : BlockHeader → Bool
  /-- `Cuckatoo::Validate`. -/
  cuckatoo : BlockHeader → Bool

namespace Global

/-- `Global::IsAutomatedTesting`. -/
def isAutomatedTesting (G : Global) : Bool :=
  G.env = .automatedTesting

/-- Different strings of bytes have different hashes. -/
def InjectiveOnBytes (G : Global) : Prop :=
  ∀ a b, G.blake2b (.bytes a) = G.blake2b (.bytes b) → a = b

/-- Different pairs of a position and a payload have different hashes. -/
structure InjectiveWithIndex (G : Global) : Prop where
  /-- Two leaves. -/
  leaf : ∀ i j a b, G.blake2b (.leafWithIndex i a) = G.blake2b (.leafWithIndex j b) →
    i = j ∧ a = b
  /-- Two parents. -/
  parent : ∀ i j a b c d, G.blake2b (.parentWithIndex i a b) = G.blake2b (.parentWithIndex j c d) →
    i = j ∧ a = c ∧ b = d
  /-- A leaf and a parent. -/
  leaf_ne_parent : ∀ i j a b c, G.blake2b (.leafWithIndex i a) ≠ G.blake2b (.parentWithIndex j b c)

/-- No pair of a position and a payload has the empty hash, which the source uses to say that
there is none. -/
structure NonzeroWithIndex (G : Global) : Prop where
  /-- A leaf. -/
  leaf : ∀ i a, G.blake2b (.leafWithIndex i a) ≠ Hash.zero
  /-- A parent. -/
  parent : ∀ i a b, G.blake2b (.parentWithIndex i a b) ≠ Hash.zero

end Global

/-! ### Exceptions and statuses -/

/-- The reasons to ban a peer that the modelled code gives. -/
inductive EBanReason
  | badBlock
  | badBlockHeader
  | badTransaction
deriving DecidableEq

/-- How a call can end without a result: the exceptions of the source, and the two ends that
are no exceptions – undefined behaviour (a null pointer is dereferenced, the assertions being
compiled out) and a loop that is not left. -/
inductive Exc
  | badData (reason : EBanReason) (message : String)
  | blockChain (message : String)
  | txHashSet (message : String)
  | database (message : String)
  | file (message : String)
  | runtime (message : String)
  | crypto (message : String)
  | deserialization (message : String)
  | undefined
  | hang
deriving DecidableEq

/-- The end of a call is an exception of the source. -/
def Exc.Thrown (e : Exc) : Prop :=
  e ≠ .undefined ∧ e ≠ .hang

instance : DecidablePred Exc.Thrown :=
  fun e => inferInstanceAs (Decidable (e ≠ .undefined ∧ e ≠ .hang))

/-- A null result, turned into an exception. -/
def orThrow {α : Type} (x : Option α) (e : Exc) : Except Exc α :=
  match x with
  | some a => .ok a
  | none => .error e

theorem orThrow_eq_ok {α : Type} {x : Option α} {e : Exc} {a : α} :
    orThrow x e = .ok a ↔ x = some a := by
  cases x with
  | none => simp [orThrow]
  | some b => simp [orThrow]

/-- `EBlockChainStatus`, the statuses the modelled code returns. -/
inductive EBlockChainStatus
  | success
  | alreadyExists
  | orphaned
  | invalid
  | transactionsMissing
  | unknownError
deriving DecidableEq

/-! ### Serialised forms -/

/-- `OutputIdentifier::Serialize`. -/
def OutputIdentifier.serialize (o : OutputIdentifier) : List UInt8 :=
  o.features.value :: o.commitment.bytes

/-- `RangeProof::Serialize`. -/
def RangeProof.serialize (p : RangeProof) : List UInt8 :=
  beBytes 8 675 ++ p.bytes

/-- `Fee::Serialize`. -/
def Fee.serialize (f : Fee) : List UInt8 :=
  beBytes 2 0 ++ [f.shift] ++ beBytes 5 f.fee.toNat

/-- `TransactionKernel::Serialize` under the first protocol version, the form that is
hashed. -/
def TransactionKernel.serialize (k : TransactionKernel) : List UInt8 :=
  k.features.value ::
    (k.fee.serialize ++ beBytes 8 k.lockHeight.toNat ++ k.excessCommitment.bytes ++
      k.excessSignature.bytes)

/-- `TransactionInput::Serialize` under the local protocol version: no features. -/
def TransactionInput.serialize (i : TransactionInput) : List UInt8 :=
  i.commitment.bytes

section Hashes

variable (G : Global)

/-- `BlockHeader::GetHash`: the hash of the cycle as it was received. -/
def BlockHeader.getHash (h : BlockHeader) : Hash :=
  G.blake2b (.bytes h.proofOfWork.bits)

/-- `FullBlock::GetHash`. -/
def FullBlock.getHash (b : FullBlock) : Hash :=
  b.header.getHash G

/-- `TransactionInput::GetHash`. -/
def TransactionInput.getHash (i : TransactionInput) : Hash :=
  G.blake2b (.bytes i.serialize)

/-- `TransactionOutput::GetHash`: the features and the commitment, not the range proof. -/
def TransactionOutput.getHash (o : TransactionOutput) : Hash :=
  G.blake2b (.bytes (OutputIdentifier.fromOutput o).serialize)

/-- `TransactionKernel::GetHash`. -/
def TransactionKernel.getHash (k : TransactionKernel) : Hash :=
  G.blake2b (.bytes k.serialize)

/-- `TransactionKernel::GetSignatureMessage`. -/
def TransactionKernel.getSignatureMessage (k : TransactionKernel) : Hash :=
  G.blake2b (.bytes (
    k.features.value ::
      ((if k.features = .coinbaseKernel then [] else k.fee.serialize) ++
        (if k.features = .heightLocked then beBytes 8 k.lockHeight.toNat else []) ++
        (if k.features = .noRecentDuplicate then beBytes 2 k.lockHeight.toNat else []))))

end Hashes

/-! ### Injectivity of the serialised forms -/

theorem beBytes_injective {k m n : ℕ} (hm : m < 256 ^ k) (hn : n < 256 ^ k)
    (h : beBytes k m = beBytes k n) : m = n := by
  induction k generalizing m n with
  | zero =>
    rw [pow_zero] at hm hn
    omega
  | succ k ih =>
    rw [beBytes, beBytes, List.map_inj_left] at h
    have hdiv : m / 256 = n / 256 := by
      refine ih (by rw [pow_succ] at hm; omega) (by rw [pow_succ] at hn; omega) ?_
      rw [beBytes, beBytes, List.map_inj_left]
      intro i hi
      rw [List.mem_range] at hi
      have h1 := h i (List.mem_range.mpr (by omega))
      rwa [show k + 1 - 1 - i = (k - 1 - i) + 1 by omega, pow_succ, Nat.mul_comm,
        ← Nat.div_div_eq_div_mul, ← Nat.div_div_eq_div_mul] at h1
    have hlast := h k (List.mem_range.mpr (by omega))
    rw [show k + 1 - 1 - k = 0 by omega, pow_zero, Nat.div_one, Nat.div_one] at hlast
    have hmod := congrArg UInt8.toNat hlast
    rw [UInt8.toNat_ofNat', UInt8.toNat_ofNat'] at hmod
    omega

theorem CBigInteger.ext_bytes {n : ℕ} {a b : CBigInteger n} (h : a.bytes = b.bytes) : a = b := by
  cases a
  cases b
  cases h
  rfl

theorem OutputIdentifier.serialize_injective {a b : OutputIdentifier}
    (h : a.serialize = b.serialize) : a = b := by
  rw [serialize, serialize, List.cons.injEq] at h
  have hf : a.features = b.features := congrArg OutputFeatures.mk h.1
  cases a
  cases b
  rw [OutputIdentifier.mk.injEq]
  exact ⟨hf, CBigInteger.ext_bytes h.2⟩

theorem RangeProof.serialize_injective {a b : RangeProof} (h : a.serialize = b.serialize) :
    a = b :=
  CBigInteger.ext_bytes (List.append_cancel_left h)

theorem Fee.serialize_injective {a b : Fee} (h : a.serialize = b.serialize) : a = b := by
  rw [serialize, serialize] at h
  obtain ⟨h1, h2⟩ := List.append_inj h (by simp)
  have hs : a.shift = b.shift := by
    simpa using List.append_cancel_left h1
  have hf : a.fee = b.fee :=
    UInt64.toNat_inj.mp (beBytes_injective a.fee_lt b.fee_lt h2)
  cases a
  cases b
  cases hs
  cases hf
  rfl

/-- The hashed form of a kernel determines the kernel. -/
theorem TransactionKernel.serialize_injective {a b : TransactionKernel}
    (h : a.serialize = b.serialize) : a = b := by
  rw [serialize, serialize, List.cons.injEq] at h
  obtain ⟨hfeat, h⟩ := h
  have hlen : ∀ f : Fee, f.serialize.length = 8 := fun f => by simp [Fee.serialize]
  obtain ⟨h, hsig⟩ := List.append_inj h (by
    simp only [List.length_append, hlen, length_beBytes, a.excessCommitment.length_eq,
      b.excessCommitment.length_eq])
  obtain ⟨h, hexc⟩ := List.append_inj h (by
    simp only [List.length_append, hlen, length_beBytes])
  obtain ⟨hfee, hlock⟩ := List.append_inj h (by rw [hlen, hlen])
  have hl : a.lockHeight = b.lockHeight :=
    UInt64.toNat_inj.mp (beBytes_injective a.lockHeight.toNat_lt b.lockHeight.toNat_lt hlock)
  have hf : a.features = b.features := congrArg KernelFeatures.mk hfeat
  cases a
  cases b
  rw [TransactionKernel.mk.injEq]
  exact ⟨hf, Fee.serialize_injective hfee, hl, CBigInteger.ext_bytes hexc,
    CBigInteger.ext_bytes hsig⟩

/-- Under an injective hash, headers with the same hash have the same proof of work. -/
theorem BlockHeader.proofOfWork_eq_of_getHash_eq {G : Global} (hG : G.InjectiveOnBytes)
    {a b : BlockHeader} (h : a.getHash G = b.getHash G) : a.proofOfWork = b.proofOfWork :=
  ProofOfWork.eq_of_bits_eq (hG _ _ h)

end GrinPlusPlus
