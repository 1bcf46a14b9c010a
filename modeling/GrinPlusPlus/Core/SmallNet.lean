import GrinPlusPlus.Core.Validation
import Mathlib.Data.Nat.Pairing

/-!
# A small network

An instance of `GrinPlusPlus.Global` on which everything can be evaluated: an injective hash
of natural numbers, commitments that are numbers and add up like numbers, and proofs that are
always accepted. The concrete inputs of the development live on it.
-/

namespace GrinPlusPlus

namespace SmallNet

/-! ### The hash -/

/-- A number for a string of bytes. -/
def encode (data : List UInt8) : ℕ :=
  data.foldr (fun b n => 257 * n + b.toNat + 1) 0

theorem encode_injective {a b : List UInt8} (h : encode a = encode b) : a = b := by
  induction a generalizing b with
  | nil =>
    cases b with
    | nil => rfl
    | cons y b =>
      simp only [encode, List.foldr_nil, List.foldr_cons] at h
      omega
  | cons x a ih =>
    cases b with
    | nil =>
      simp only [encode, List.foldr_nil, List.foldr_cons] at h
      omega
    | cons y b =>
      have hx := x.toNat_lt
      have hy := y.toNat_lt
      have hstep : 257 * encode a + x.toNat + 1 = 257 * encode b + y.toNat + 1 := h
      have hhead : x = y := UInt8.toNat_inj.mp (by omega)
      have htail : encode a = encode b := by omega
      rw [hhead, ih htail]

/-- The hash. -/
def blake2b : HashInput → Hash
  | .bytes data => ⟨3 * encode data⟩
  | .leafWithIndex index leaf => ⟨3 * Nat.pair index (encode leaf) + 1⟩
  | .parentWithIndex index left right =>
    ⟨3 * Nat.pair index (Nat.pair left.value right.value) + 2⟩

/-! ### Commitments -/

/-- The commitment that stands for a number. -/
def commitment (n : ℕ) : Commitment :=
  ⟨beBytes 33 n, length_beBytes 33 n⟩

/-- The number of a string of bytes. -/
def number {n : ℕ} (c : CBigInteger n) : ℕ :=
  c.bytes.foldl (fun m b => 256 * m + b.toNat) 0

/-- The sum of commitments. -/
def addCommitments (positive negative : List Commitment) : Option Commitment :=
  some (commitment
    ((positive.map number).sum + 2 ^ 264 * negative.length - (negative.map number).sum))

/-- The commitment to a value: the blinding factor is shifted behind the value. -/
def commit (value : ℕ) (blind : BlindingFactor) : Commitment :=
  commitment (value + 2 ^ 64 * number blind)

/-- No blinding factor. -/
def noBlind : BlindingFactor :=
  ⟨beBytes 32 0, length_beBytes 32 0⟩

/-! ### Headers and blocks -/

/-- The smallest proof of work, with a byte to tell it from others. -/
def proofOfWork (n : UInt8) : ProofOfWork where
  edgeBits := 1
  bits := [n, 0, 0, 0, 0, 0]
  edgeBits_pos := by decide
  edgeBits_le := by decide
  length_bits := rfl

/-- A proof of work with two bytes to tell it from others. -/
def longProofOfWork (n : ℕ) : ProofOfWork where
  edgeBits := 1
  bits := [UInt8.ofNat n, UInt8.ofNat (n / 256), 1, 0, 0, 0]
  edgeBits_pos := by decide
  edgeBits_le := by decide
  length_bits := by
    simp only [List.length_cons, List.length_nil]
    decide

theorem longProofOfWork_injective {m n : ℕ} (hm : m < 65536) (hn : n < 65536)
    (h : longProofOfWork m = longProofOfWork n) : m = n := by
  have hbits := congrArg ProofOfWork.bits h
  simp only [longProofOfWork, List.cons.injEq, ← UInt8.toNat_inj, UInt8.toNat_ofNat'] at hbits
  omega

theorem proofOfWork_ne_longProofOfWork (m : UInt8) (n : ℕ) :
    proofOfWork m ≠ longProofOfWork n := by
  intro h
  have hbits := congrArg ProofOfWork.bits h
  simp [proofOfWork, longProofOfWork] at hbits

/-- A range proof. -/
def rangeProof : RangeProof :=
  ⟨List.replicate 675 0, List.length_replicate⟩

/-- A signature. -/
def signature : Signature :=
  ⟨List.replicate 64 0, List.length_replicate⟩

/-- The output of a reward, blinded by a number. -/
def coinbaseOutput (blind : ℕ) : TransactionOutput where
  features := .coinbaseOutput
  commitment := commitment (Consensus.reward + 2 ^ 64 * blind)
  rangeProof := rangeProof

/-- The kernel of a reward, blinded by a number. -/
def coinbaseKernel (blind : ℕ) : TransactionKernel where
  features := .coinbaseKernel
  fee := ⟨0, 0, by decide, by decide⟩
  lockHeight := 0
  excessCommitment := commitment (2 ^ 64 * blind)
  excessSignature := signature

/-- The body of a block without transactions. -/
def coinbaseBody (blind : ℕ) : TransactionBody where
  inputs := []
  outputs := [coinbaseOutput blind]
  kernels := [coinbaseKernel blind]

/-- The header of the genesis block. -/
def genesisHeader : BlockHeader where
  version := 1
  height := 0
  timestamp := 0
  previousHash := Hash.zero
  previousRoot := Hash.zero
  outputRoot :=
    blake2b (.leafWithIndex 0 (OutputIdentifier.fromOutput (coinbaseOutput 1)).serialize)
  rangeProofRoot := blake2b (.leafWithIndex 0 rangeProof.serialize)
  kernelRoot := blake2b (.leafWithIndex 0 (coinbaseKernel 1).serialize)
  totalKernelOffset := noBlind
  outputMMRSize := 1
  kernelMMRSize := 1
  totalDifficulty := 1
  scalingDifficulty := 1
  nonce := 0
  proofOfWork := proofOfWork 0

end SmallNet

open SmallNet in
/-- The small network. -/
def smallNet (env : Environment) : Global where
  env := env
  genesisBlock := ⟨genesisHeader, coinbaseBody 1⟩
  clockTicksPerSecond := 1
  loopBound := 16
  blake2b := blake2b
  commitTransparent := fun value => some (commit value noBlind)
  commitBlinded := fun value blind => some (commit value blind)
  addCommitments := SmallNet.addCommitments
  addBlindingFactors := fun positive _ => positive.head?
  verifyRangeProofs := fun _ => true
  verifyKernelSignatures := fun _ => true
  cuckaroo := fun _ => true
  cuckarood := fun _ => true
  cuckaroom := fun _ => true
  cuckarooz := fun _ => true
  cuckatoo := fun _ => true

namespace SmallNet

theorem injectiveOnBytes (env : Environment) : (smallNet env).InjectiveOnBytes := by
  intro a b h
  have hval : 3 * encode a = 3 * encode b := congrArg Hash.value h
  exact encode_injective (by omega)

theorem injectiveWithIndex (env : Environment) : (smallNet env).InjectiveWithIndex where
  leaf := by
    intro i j a b h
    have hval : 3 * Nat.pair i (encode a) + 1 = 3 * Nat.pair j (encode b) + 1 :=
      congrArg Hash.value h
    obtain ⟨hi, ha⟩ := Nat.pair_eq_pair.mp
      (by omega : Nat.pair i (encode a) = Nat.pair j (encode b))
    exact ⟨hi, encode_injective ha⟩
  parent := by
    intro i j a b c d h
    have hval : 3 * Nat.pair i (Nat.pair a.value b.value) + 2 =
        3 * Nat.pair j (Nat.pair c.value d.value) + 2 := congrArg Hash.value h
    obtain ⟨hi, hp⟩ := Nat.pair_eq_pair.mp
      (by omega : Nat.pair i (Nat.pair a.value b.value) = Nat.pair j (Nat.pair c.value d.value))
    obtain ⟨ha, hb⟩ := Nat.pair_eq_pair.mp hp
    refine ⟨hi, ?_, ?_⟩
    · cases a
      cases c
      exact congrArg Hash.mk ha
    · cases b
      cases d
      exact congrArg Hash.mk hb
  leaf_ne_parent := by
    intro i j a b c h
    have hval : 3 * Nat.pair i (encode a) + 1 = 3 * Nat.pair j (Nat.pair b.value c.value) + 2 :=
      congrArg Hash.value h
    omega

theorem nonzeroWithIndex (env : Environment) : (smallNet env).NonzeroWithIndex where
  leaf := by
    intro i a h
    have hval : 3 * Nat.pair i (encode a) + 1 = 0 := congrArg Hash.value h
    omega
  parent := by
    intro i a b h
    have hval : 3 * Nat.pair i (Nat.pair a.value b.value) + 2 = 0 := congrArg Hash.value h
    omega

end SmallNet

end GrinPlusPlus
