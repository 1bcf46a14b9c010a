import Mathlib.Data.Int.Notation
import Mathlib.Data.List.GetD
import Mathlib.Data.Nat.Bitwise
import Mathlib.Tactic.Common

/-!
# The data model: hashes, proofs of work, headers and blocks

The values that travel between peers and that the node stores, as
`include/Core/Models` and `include/Crypto/Models` declare them. A field keeps the
width of the source (`UInt16`, `UInt64`, …); the getters that enter arithmetic give
natural numbers.

Two points of the format matter later:

* a header is identified by `BlockHeader.getHash`, the hash of the *bytes of its
  proof-of-work cycle as they were received* (`ProofOfWork.bits`). Neither the height
  nor the roots nor any other field enters it;
* what is written back is the cycle packed again from its nonces
  (`ProofOfWork.serializeCycle`), which clears the padding bits behind the last
  nonce. `ProofOfWork.reload` is a proof of work after such a round trip through the
  database; it keeps the cycle (`ProofOfWork.serializeCycle_reload`) but not
  necessarily the hash.
-/

namespace GrinPlusPlus

/-! ### Byte strings of a fixed size -/

/-- A string of exactly `n` bytes. -/
structure CBigInteger (n : ℕ) where
  /-- The bytes, most significant first. -/
  bytes : List UInt8
  /-- There are `n` of them. -/
  length_eq : bytes.length = n
deriving DecidableEq

/-- A Pedersen commitment. -/
abbrev Commitment := CBigInteger 33

instance : LawfulBEq Commitment := inferInstance

/-- A blinding factor. -/
abbrev BlindingFactor := CBigInteger 32

/-- A Schnorr signature. -/
abbrev Signature := CBigInteger 64

/-- The bytes of a range proof; shorter proofs are padded to this length when they are
read (`RangeProof::Normalize`). -/
abbrev RangeProof := CBigInteger 675

/-- A hash. The range of the hash function is left unbounded, so that assuming it
injective is not vacuous; the order is the one hashes are sorted by. -/
structure Hash where
  /-- The hash as a number. -/
  value : ℕ
deriving DecidableEq

namespace Hash

instance : LT Hash := ⟨fun a b => a.value < b.value⟩

instance : DecidableRel (α := Hash) (· < ·) :=
  fun a b => inferInstanceAs (Decidable (a.value < b.value))

/-- `ZERO_HASH`. -/
def zero : Hash := ⟨0⟩

/-- The first eight of the 32 bytes of a hash, read as a big-endian number. -/
def first64 (h : Hash) : ℕ :=
  h.value / 2 ^ 192 % 2 ^ 64

end Hash

/-! ### Serialised integers -/

/-- `Serializer::Append` of an unsigned integer of `k` bytes: big-endian. -/
def beBytes (k n : ℕ) : List UInt8 :=
  (List.range k).map fun i => UInt8.ofNat (n / 256 ^ (k - 1 - i))

@[simp] theorem length_beBytes (k n : ℕ) : (beBytes k n).length = k := by
  simp [beBytes]

/-! ### The proof of work -/

/-- `Consensus::PROOFSIZE`. -/
def proofSize : ℕ := 42

/-- Bit `pos` of a string of bytes, the least significant bit of a byte first. -/
def bitAt (bits : List UInt8) (pos : ℕ) : Bool :=
  (bits.getD (pos / 8) 0).toNat.testBit (pos % 8)

/-- A byte from its bits. -/
def byteOf (f : ℕ → Bool) : UInt8 :=
  UInt8.ofNat (Nat.ofBits fun i : Fin 8 => f i)

/-- The number of bytes of a packed cycle. -/
def cycleLength (edgeBits : ℕ) : ℕ :=
  (edgeBits * proofSize + 7) / 8

/-- A proof of work as it was received: the size of the graph and the bytes of the
cycle. `ProofOfWork::DeserializeProofNonces` refuses other sizes. -/
structure ProofOfWork where
  /-- The logarithm of the size of the graph. -/
  edgeBits : UInt8
  /-- The bytes of the cycle, padding included. -/
  bits : List UInt8
  /-- The size is not zero … -/
  edgeBits_pos : 0 < edgeBits.toNat
  /-- … and at most 63. -/
  edgeBits_le : edgeBits.toNat ≤ 63
  /-- There are as many bytes as the size asks for. -/
  length_bits : bits.length = cycleLength edgeBits.toNat
deriving DecidableEq

namespace ProofOfWork

/-- `ProofOfWork::DeserializeProofNonces`: nonce `n` of a packed cycle. -/
def proofNonce (edgeBits : ℕ) (bits : List UInt8) (n : ℕ) : ℕ :=
  Nat.ofBits fun bit : Fin edgeBits => bitAt bits (n * edgeBits + bit)

/-- `ProofOfWork::GetProofNonces`. -/
def getProofNonces (p : ProofOfWork) : List ℕ :=
  (List.range proofSize).map (proofNonce p.edgeBits.toNat p.bits)

/-- Bit `pos` of the cycle packed from its nonces: bit `pos % edgeBits` of nonce
`pos / edgeBits`, and no bit behind the last nonce. -/
def cycleBit (edgeBits : ℕ) (bits : List UInt8) (pos : ℕ) : Bool :=
  decide (pos / edgeBits < proofSize) &&
    (proofNonce edgeBits bits (pos / edgeBits)).testBit (pos % edgeBits)

/-- `ProofOfWork::SerializeCycle`: the nonces packed again. -/
def serializeCycle (p : ProofOfWork) : List UInt8 :=
  (List.range (cycleLength p.edgeBits.toNat)).map fun j =>
    byteOf fun b => cycleBit p.edgeBits.toNat p.bits (8 * j + b)

@[simp] theorem length_serializeCycle (p : ProofOfWork) :
    p.serializeCycle.length = cycleLength p.edgeBits.toNat := by
  simp [serializeCycle]

/-- The proof of work read back from its serialisation. -/
def reload (p : ProofOfWork) : ProofOfWork where
  edgeBits := p.edgeBits
  bits := p.serializeCycle
  edgeBits_pos := p.edgeBits_pos
  edgeBits_le := p.edgeBits_le
  length_bits := p.length_serializeCycle

@[simp] theorem reload_edgeBits (p : ProofOfWork) : p.reload.edgeBits = p.edgeBits := rfl

@[simp] theorem reload_bits (p : ProofOfWork) : p.reload.bits = p.serializeCycle := rfl

/-- Proofs of work are equal when their sizes and their bytes are. -/
theorem ext_bits {p q : ProofOfWork} (he : p.edgeBits = q.edgeBits) (hb : p.bits = q.bits) :
    p = q := by
  cases p
  cases q
  cases he
  cases hb
  rfl

/-- A nonce of the packed cycle read bit by bit gives back the packed bits. -/
theorem cycleBit_eq {edgeBits : ℕ} (he : 0 < edgeBits) (bits : List UInt8) (pos : ℕ) :
    cycleBit edgeBits bits pos = (decide (pos / edgeBits < proofSize) && bitAt bits pos) := by
  have hlt : pos % edgeBits < edgeBits := Nat.mod_lt pos he
  rw [cycleBit, proofNonce, Nat.testBit_ofBits_lt _ _ hlt]
  simp only [Nat.div_add_mod']

theorem bitAt_serializeCycle (p : ProofOfWork) {pos : ℕ}
    (hpos : pos < 8 * cycleLength p.edgeBits.toNat) :
    bitAt p.serializeCycle pos = cycleBit p.edgeBits.toNat p.bits pos := by
  have hj : pos / 8 < cycleLength p.edgeBits.toNat := Nat.div_lt_of_lt_mul hpos
  have hm : pos % 8 < 8 := Nat.mod_lt pos (by decide)
  have hlt : Nat.ofBits (fun i : Fin 8 =>
      cycleBit p.edgeBits.toNat p.bits (8 * (pos / 8) + i)) < 2 ^ 8 := Nat.ofBits_lt_two_pow _
  rw [bitAt, serializeCycle, List.getD_eq_getElem _ _ (by simpa using hj), List.getElem_map,
    List.getElem_range, byteOf, UInt8.toNat_ofNat_of_lt' (by simpa [UInt8.size] using hlt),
    Nat.testBit_ofBits_lt _ _ hm]
  simp only [Nat.div_add_mod]

/-- Packing twice is packing once: a round trip through the database keeps the cycle. -/
theorem serializeCycle_reload (p : ProofOfWork) :
    p.reload.serializeCycle = p.serializeCycle := by
  rw [serializeCycle, serializeCycle]
  refine List.map_congr_left fun j hj => ?_
  rw [List.mem_range] at hj
  simp only [reload_edgeBits, reload_bits] at hj ⊢
  unfold byteOf
  refine congrArg UInt8.ofNat (congrArg Nat.ofBits (funext fun b => ?_))
  have hb := b.isLt
  beta_reduce
  rw [cycleBit_eq p.edgeBits_pos, bitAt_serializeCycle p (by omega), cycleBit_eq p.edgeBits_pos,
    ← Bool.and_assoc, Bool.and_self]

/-- A second round trip changes nothing. -/
@[simp] theorem reload_reload (p : ProofOfWork) : p.reload.reload = p.reload :=
  ext_bits rfl (serializeCycle_reload p)

end ProofOfWork

/-- The length of a packed cycle determines the size of the graph. -/
theorem cycleLength_inj {a b : ℕ} (h : cycleLength a = cycleLength b) : a = b := by
  unfold cycleLength proofSize at h
  omega

/-- The bytes of a cycle determine the proof of work. -/
theorem ProofOfWork.eq_of_bits_eq {p q : ProofOfWork} (h : p.bits = q.bits) : p = q := by
  refine ext_bits ?_ h
  have hlen : cycleLength p.edgeBits.toNat = cycleLength q.edgeBits.toNat := by
    rw [← p.length_bits, ← q.length_bits, h]
  exact UInt8.toNat_inj.mp (cycleLength_inj hlen)

/-! ### Headers -/

/-- A block header. -/
structure BlockHeader where
  /-- The version of the header. -/
  version : UInt16
  /-- The height of the block. -/
  height : UInt64
  /-- The time of the block, in seconds. -/
  timestamp : Int64
  /-- The hash of the previous header. -/
  previousHash : Hash
  /-- The root of the header MMR over the previous headers. -/
  previousRoot : Hash
  /-- The root of the output MMR, merged with that of the output bitmap from version 3 on. -/
  outputRoot : Hash
  /-- The root of the range proof MMR. -/
  rangeProofRoot : Hash
  /-- The root of the kernel MMR. -/
  kernelRoot : Hash
  /-- The sum of the kernel offsets of the chain. -/
  totalKernelOffset : BlindingFactor
  /-- The size of the output and range proof MMRs. -/
  outputMMRSize : UInt64
  /-- The size of the kernel MMR. -/
  kernelMMRSize : UInt64
  /-- The difficulty of the chain up to this block. -/
  totalDifficulty : UInt64
  /-- The scaling factor of the secondary proof of work. -/
  scalingDifficulty : UInt32
  /-- The nonce of the proof of work. -/
  nonce : UInt64
  /-- The proof of work. -/
  proofOfWork : ProofOfWork
deriving DecidableEq

namespace BlockHeader

/-- `BlockHeader::GetHeight`. -/
def getHeight (h : BlockHeader) : ℕ := h.height.toNat

/-- `BlockHeader::GetTimestamp`. -/
def getTimestamp (h : BlockHeader) : ℤ := h.timestamp.toInt

/-- `BlockHeader::GetTotalDifficulty`. -/
def getTotalDifficulty (h : BlockHeader) : ℕ := h.totalDifficulty.toNat

/-- `BlockHeader::GetOutputMMRSize`. -/
def getOutputMMRSize (h : BlockHeader) : ℕ := h.outputMMRSize.toNat

/-- `BlockHeader::GetKernelMMRSize`. -/
def getKernelMMRSize (h : BlockHeader) : ℕ := h.kernelMMRSize.toNat

/-- The header read back from its serialisation. -/
def reload (h : BlockHeader) : BlockHeader :=
  { h with proofOfWork := h.proofOfWork.reload }

@[simp] theorem reload_reload (h : BlockHeader) : h.reload.reload = h.reload := by
  simp [reload]

end BlockHeader

/-! ### Transactions and blocks -/

/-- `EOutputFeatures`: any byte of the wire is cast to it. -/
structure OutputFeatures where
  /-- The byte. -/
  value : UInt8
deriving DecidableEq

/-- `EKernelFeatures`: any byte of the wire is cast to it. -/
structure KernelFeatures where
  /-- The byte. -/
  value : UInt8
deriving DecidableEq

namespace OutputFeatures

/-- `EOutputFeatures::DEFAULT`. -/
def default : OutputFeatures := ⟨0⟩

/-- `EOutputFeatures::COINBASE_OUTPUT`. -/
def coinbaseOutput : OutputFeatures := ⟨1⟩

/-- `IsCoinbase` of an output: the coinbase bit is set. -/
def isCoinbase (f : OutputFeatures) : Bool := f.value &&& 1 == 1

end OutputFeatures

namespace KernelFeatures

/-- `EKernelFeatures::DEFAULT_KERNEL`. -/
def defaultKernel : KernelFeatures := ⟨0⟩

/-- `EKernelFeatures::COINBASE_KERNEL`. -/
def coinbaseKernel : KernelFeatures := ⟨1⟩

/-- `EKernelFeatures::HEIGHT_LOCKED`. -/
def heightLocked : KernelFeatures := ⟨2⟩

/-- `EKernelFeatures::NO_RECENT_DUPLICATE`. -/
def noRecentDuplicate : KernelFeatures := ⟨3⟩

/-- `TransactionKernel::IsCoinbase`: the coinbase bit is set – which it also is in
`NO_RECENT_DUPLICATE`. -/
def isCoinbase (f : KernelFeatures) : Bool := f.value &&& 1 == 1

end KernelFeatures

/-- A fee with its shift, within the bounds of the serialised form. -/
structure Fee where
  /-- The shift. -/
  shift : UInt8
  /-- The fee. -/
  fee : UInt64
  /-- Four bits of shift … -/
  shift_lt : shift.toNat < 16
  /-- … and forty of fee. -/
  fee_lt : fee.toNat < 2 ^ 40
deriving DecidableEq

/-- An input: the commitment of the output it spends. -/
structure TransactionInput where
  /-- The features the spender claims. -/
  features : OutputFeatures
  /-- The commitment of the output. -/
  commitment : Commitment
deriving DecidableEq

/-- An output. -/
structure TransactionOutput where
  /-- The features. -/
  features : OutputFeatures
  /-- The commitment. -/
  commitment : Commitment
  /-- The proof that the amount is in range. -/
  rangeProof : RangeProof
deriving DecidableEq

/-- What the output MMR keeps of an output. -/
structure OutputIdentifier where
  /-- The features. -/
  features : OutputFeatures
  /-- The commitment. -/
  commitment : Commitment
deriving DecidableEq

/-- `OutputIdentifier::FromOutput`. -/
def OutputIdentifier.fromOutput (o : TransactionOutput) : OutputIdentifier :=
  ⟨o.features, o.commitment⟩

/-- A kernel. -/
structure TransactionKernel where
  /-- The features. -/
  features : KernelFeatures
  /-- The fee. -/
  fee : Fee
  /-- The lock height, or the relative height of a no-recent-duplicate kernel. -/
  lockHeight : UInt64
  /-- The excess. -/
  excessCommitment : Commitment
  /-- The signature with the excess. -/
  excessSignature : Signature
deriving DecidableEq

/-- The body of a transaction or of a block. -/
structure TransactionBody where
  /-- The outputs it spends. -/
  inputs : List TransactionInput
  /-- The outputs it creates. -/
  outputs : List TransactionOutput
  /-- Its kernels. -/
  kernels : List TransactionKernel
deriving DecidableEq

/-- A transaction. -/
structure Transaction where
  /-- The kernel offset. -/
  offset : BlindingFactor
  /-- The body. -/
  body : TransactionBody
deriving DecidableEq

/-- A block: a header and a body. -/
structure FullBlock where
  /-- The header. -/
  header : BlockHeader
  /-- The body. -/
  body : TransactionBody
deriving DecidableEq

namespace FullBlock

/-- `FullBlock::GetHeight`. -/
def getHeight (b : FullBlock) : ℕ := b.header.getHeight

/-- `FullBlock::GetPreviousHash`. -/
def getPreviousHash (b : FullBlock) : Hash := b.header.previousHash

/-- `FullBlock::GetTotalDifficulty`. -/
def getTotalDifficulty (b : FullBlock) : ℕ := b.header.getTotalDifficulty

/-- The block read back from its serialisation. -/
def reload (b : FullBlock) : FullBlock :=
  { b with header := b.header.reload }

@[simp] theorem reload_reload (b : FullBlock) : b.reload.reload = b.reload := by
  simp [reload]

end FullBlock

/-- The sums of the outputs and of the kernels of a chain. -/
structure BlockSums where
  /-- The sum of the output commitments. -/
  outputSum : Commitment
  /-- The sum of the kernel excesses. -/
  kernelSum : Commitment
deriving DecidableEq

/-- Where an output is: its leaf in the output MMR, and the height of its block. -/
structure OutputLocation where
  /-- The index of the leaf. -/
  leafIndex : ℕ
  /-- The height of the block. -/
  blockHeight : ℕ
deriving DecidableEq

/-- An output a block spent, with the place it had. -/
structure SpentOutput where
  /-- The commitment. -/
  commitment : Commitment
  /-- The place. -/
  location : OutputLocation
deriving DecidableEq

end GrinPlusPlus
