import GrinPlusPlus.Core.KernelCodec
import GrinPlusPlus.Core.SmallNet
import GrinPlusPlus.Core.WireCodec

/-!
# The bytes of a proof of work and its nonces

A proof of work arrives as a byte with the size of the graph and a string of bytes with the
cycle, 42 nonces of so many bits, one behind the other. The string has as many bytes as these
bits need, so behind the last nonce there may be bits that belong to none. Nobody looks at
them: the nonces are read in front of them, and the hash that identifies the header is that of
the string as it came.

* The string is determined by the nonces **and** these bits
  (`GrinPlusPlus.ProofOfWork.bits_eq_iff`);
* packing the nonces again clears them (`GrinPlusPlus.ProofOfWork.serializeCycle_eq_iff`), so the
  hash is that of the packed nonces only when they are clear;
* there are none exactly when four divides the number of bits of a nonce
  (`GrinPlusPlus.ProofOfWork.padding_eq_nil_iff`) – as it does for graphs of size 32, but not for
  sizes 29 and 31.
-/

namespace GrinPlusPlus

open Exec ByteBuffer

/-! ### Strings of bits -/

/-- A byte is its bits. -/
theorem toNat_eq_of_testBit {a b : UInt8}
    (h : ∀ i < 8, a.toNat.testBit i = b.toNat.testBit i) : a = b := by
  refine UInt8.toNat_inj.1 (Nat.eq_of_testBit_eq fun i => ?_)
  by_cases hi : i < 8
  · exact h i hi
  · have hlt : ∀ x : UInt8, x.toNat < 2 ^ i := fun x =>
      lt_of_lt_of_le x.toNat_lt (Nat.pow_le_pow_right (by decide) (Nat.not_lt.1 hi))
    rw [Nat.testBit_lt_two_pow (hlt a), Nat.testBit_lt_two_pow (hlt b)]

/-- Strings of one length are equal when their bits are. -/
theorem eq_of_bitAt {a b : List UInt8} (hlength : a.length = b.length)
    (h : ∀ pos < 8 * a.length, bitAt a pos = bitAt b pos) : a = b := by
  refine List.ext_getElem hlength fun j hj hj' => toNat_eq_of_testBit fun i hi => ?_
  have hbit := h (8 * j + i) (by omega)
  have hdiv : (8 * j + i) / 8 = j := by omega
  have hmod : (8 * j + i) % 8 = i := by omega
  rwa [bitAt, bitAt, hdiv, hmod, List.getD_eq_getElem _ _ hj, List.getD_eq_getElem _ _ hj'] at hbit

namespace ProofOfWork

/-! ### The bits behind the last nonce -/

/-- The number of bits behind the last nonce. -/
def paddingLength (edgeBits : ℕ) : ℕ :=
  8 * cycleLength edgeBits - edgeBits * proofSize

/-- The bits behind the last nonce. -/
def padding (p : ProofOfWork) : List Bool :=
  (List.range (paddingLength p.edgeBits.toNat)).map fun i =>
    bitAt p.bits (p.edgeBits.toNat * proofSize + i)

theorem le_cycleLength (edgeBits : ℕ) : edgeBits * proofSize ≤ 8 * cycleLength edgeBits := by
  rw [cycleLength]
  omega

/-- There are none exactly for the sizes that four divides. -/
theorem paddingLength_eq_zero_iff (edgeBits : ℕ) : paddingLength edgeBits = 0 ↔ 4 ∣ edgeBits := by
  rw [paddingLength, cycleLength, proofSize]
  omega

variable {p q : ProofOfWork}

/-- A position lies in a nonce exactly when it lies in front of the padding. -/
theorem div_lt_proofSize (p : ProofOfWork) {pos : ℕ} :
    pos / p.edgeBits.toNat < proofSize ↔ pos < p.edgeBits.toNat * proofSize := by
  rw [Nat.div_lt_iff_lt_mul p.edgeBits_pos, Nat.mul_comm]

/-- Proofs with the same padding have the same bits behind the last nonce. -/
theorem padding_eq_iff (hedge : p.edgeBits = q.edgeBits) :
    p.padding = q.padding ↔
      ∀ pos, p.edgeBits.toNat * proofSize ≤ pos → pos < 8 * cycleLength p.edgeBits.toNat →
        bitAt p.bits pos = bitAt q.bits pos := by
  rw [padding, padding, ← hedge, List.map_inj_left]
  constructor
  · intro h pos hle hlt
    have hbit := h (pos - p.edgeBits.toNat * proofSize)
      (List.mem_range.2 (by rw [paddingLength]; omega))
    rwa [Nat.add_sub_cancel' hle] at hbit
  · intro h i hi
    have hlt := List.mem_range.1 hi
    rw [paddingLength] at hlt
    exact h _ (Nat.le_add_right _ _) (by omega)

/-- The padding is clear exactly when no bit behind the last nonce is set. -/
theorem padding_clear_iff :
    (∀ b ∈ p.padding, b = false) ↔
      ∀ pos, p.edgeBits.toNat * proofSize ≤ pos → pos < 8 * cycleLength p.edgeBits.toNat →
        bitAt p.bits pos = false := by
  rw [padding, List.forall_mem_map]
  constructor
  · intro h pos hle hlt
    have hbit := h (pos - p.edgeBits.toNat * proofSize)
      (List.mem_range.2 (by rw [paddingLength]; omega))
    rwa [Nat.add_sub_cancel' hle] at hbit
  · intro h i hi
    have hlt := List.mem_range.1 hi
    rw [paddingLength] at hlt
    exact h _ (Nat.le_add_right _ _) (by omega)

/-- Equal nonces are equal bits in front of the padding. -/
theorem getProofNonces_eq_iff (hedge : p.edgeBits = q.edgeBits) :
    p.getProofNonces = q.getProofNonces ↔
      ∀ pos < p.edgeBits.toNat * proofSize, bitAt p.bits pos = bitAt q.bits pos := by
  rw [getProofNonces, getProofNonces, ← hedge, List.map_inj_left]
  constructor
  · intro h pos hpos
    have hlt := (div_lt_proofSize p).2 hpos
    have hnonce := h _ (List.mem_range.2 hlt)
    have hbit := congrArg (fun n => n.testBit (pos % p.edgeBits.toNat)) hnonce
    have hp := cycleBit_eq p.edgeBits_pos p.bits pos
    have hq := cycleBit_eq p.edgeBits_pos q.bits pos
    rw [cycleBit, decide_eq_true hlt, Bool.true_and, Bool.true_and] at hp hq
    rw [← hp, ← hq]
    exact hbit
  · intro h n hn
    rw [List.mem_range] at hn
    refine congrArg Nat.ofBits (funext fun bit => h _ ?_)
    calc n * p.edgeBits.toNat + bit < n * p.edgeBits.toNat + p.edgeBits.toNat :=
          Nat.add_lt_add_left bit.isLt _
      _ = p.edgeBits.toNat * (n + 1) := by ring
      _ ≤ p.edgeBits.toNat * proofSize := Nat.mul_le_mul_left _ hn

/-- The packed cycle depends on the nonces only. -/
theorem serializeCycle_congr (hedge : p.edgeBits = q.edgeBits)
    (hnonces : p.getProofNonces = q.getProofNonces) : p.serializeCycle = q.serializeCycle := by
  rw [getProofNonces_eq_iff hedge] at hnonces
  refine eq_of_bitAt (by simp [hedge]) fun pos hpos => ?_
  rw [length_serializeCycle] at hpos
  rw [bitAt_serializeCycle p hpos, bitAt_serializeCycle q (by rwa [← hedge]),
    cycleBit_eq p.edgeBits_pos, cycleBit_eq q.edgeBits_pos, ← hedge]
  simp only [div_lt_proofSize]
  by_cases hlt : pos < p.edgeBits.toNat * proofSize
  · rw [hnonces pos hlt]
  · rw [decide_eq_false hlt, Bool.false_and, Bool.false_and]

/-- **The bytes of a cycle are its nonces and its padding.** -/
theorem bits_eq_iff (hedge : p.edgeBits = q.edgeBits) :
    p.bits = q.bits ↔ p.getProofNonces = q.getProofNonces ∧ p.padding = q.padding := by
  have hlen : p.bits.length = cycleLength p.edgeBits.toNat := p.length_bits
  have hle := le_cycleLength p.edgeBits.toNat
  rw [getProofNonces_eq_iff hedge, padding_eq_iff hedge]
  constructor
  · intro h
    simp [h]
  · rintro ⟨hnonces, hpadding⟩
    refine eq_of_bitAt (by rw [hlen, q.length_bits, hedge]) fun pos hpos => ?_
    rw [hlen] at hpos
    rcases Nat.lt_or_ge pos (p.edgeBits.toNat * proofSize) with h | h
    · exact hnonces pos h
    · exact hpadding pos h hpos

/-- **Packing the nonces again gives the bytes back exactly when the padding is clear.** -/
theorem serializeCycle_eq_iff : p.serializeCycle = p.bits ↔ ∀ b ∈ p.padding, b = false := by
  have hbit : ∀ pos < 8 * cycleLength p.edgeBits.toNat,
      bitAt p.serializeCycle pos =
        (decide (pos < p.edgeBits.toNat * proofSize) && bitAt p.bits pos) := by
    intro pos hpos
    rw [bitAt_serializeCycle p hpos, cycleBit_eq p.edgeBits_pos]
    simp only [div_lt_proofSize]
  rw [padding_clear_iff]
  constructor
  · intro h pos hle hlt
    rw [← h, hbit pos hlt, decide_eq_false (Nat.not_lt.2 hle), Bool.false_and]
  · intro h
    refine eq_of_bitAt (by rw [length_serializeCycle, p.length_bits]) fun pos hpos => ?_
    rw [length_serializeCycle] at hpos
    rw [hbit pos hpos]
    rcases Nat.lt_or_ge pos (p.edgeBits.toNat * proofSize) with hlt | hle
    · rw [decide_eq_true hlt, Bool.true_and]
    · rw [decide_eq_false (Nat.not_lt.2 hle), Bool.false_and, h pos hle hpos]

/-! ### Strings of bytes that are accepted -/

/-- `ProofOfWork::GetHash` of a proof of work that was read: `ProofOfWork::Deserialize` hashes the
bytes as they came. -/
def getHash (G : Global) (p : ProofOfWork) : Hash :=
  G.blake2b (.bytes p.bits)

/-- `ProofOfWork::GetHash` of a proof of work that was made from these nonces: the constructor
packs them and hashes the result. -/
def cycleHash (G : Global) (p : ProofOfWork) : Hash :=
  G.blake2b (.bytes p.serializeCycle)

/-- A string of bytes that is accepted: the size and the bytes of the cycle. -/
theorem run_deserialize_iff {bytes : List UInt8} :
    run ProofOfWork.deserialize bytes = (.ok p, []) ↔ bytes = p.edgeBits :: p.bits := by
  constructor
  · intro h
    obtain ⟨edgeBits, rest, hedge, h⟩ := of_run_bind_ok h
    obtain ⟨bits, rest', hbits, h⟩ := of_run_bind_ok h
    split at h
    · cases h
      rw [of_run_readU8 hedge, of_run_readBigInteger hbits, List.append_nil]
    · cases h
  · rintro rfl
    have hbits := run_readBigInteger
      (⟨p.bits, p.length_bits⟩ : CBigInteger (cycleLength p.edgeBits.toNat)) []
    rw [List.append_nil] at hbits
    rw [deserialize, run_bind_ok (run_readU8 _ _), run_bind_ok hbits,
      dif_pos ⟨p.edgeBits_pos, p.edgeBits_le⟩]
    rfl

section Padded

variable (edgeBits : UInt8) (hpos : 0 < edgeBits.toNat) (hle : edgeBits.toNat ≤ 63)

include hpos in
theorem length_lastBit :
    (List.replicate (cycleLength edgeBits.toNat - 1) (0 : UInt8) ++ [128]).length =
      cycleLength edgeBits.toNat := by
  rw [List.length_append, List.length_replicate, List.length_singleton, cycleLength, proofSize]
  omega

/-- The cycle of zeros. -/
def zeros : ProofOfWork where
  edgeBits := edgeBits
  bits := List.replicate (cycleLength edgeBits.toNat) 0
  edgeBits_pos := hpos
  edgeBits_le := hle
  length_bits := List.length_replicate

/-- The same with the very last bit set. -/
def lastBit : ProofOfWork where
  edgeBits := edgeBits
  bits := List.replicate (cycleLength edgeBits.toNat - 1) 0 ++ [128]
  edgeBits_pos := hpos
  edgeBits_le := hle
  length_bits := length_lastBit edgeBits hpos

theorem bitAt_replicate_zero (n pos : ℕ) : bitAt (List.replicate n 0) pos = false := by
  have hzero : (List.replicate n (0 : UInt8)).getD (pos / 8) 0 = 0 := by
    rw [List.getD_eq_getElem?_getD, List.getElem?_replicate]
    split <;> rfl
  rw [bitAt, hzero]
  exact Nat.zero_testBit _

theorem bitAt_lastBit (n pos : ℕ) :
    bitAt (List.replicate n 0 ++ [128]) pos = decide (pos = 8 * n + 7) := by
  rcases Nat.lt_trichotomy (pos / 8) n with hlt | heq | hgt
  · have hleft := List.getD_append (List.replicate n (0 : UInt8)) [128] 0 (pos / 8) (by simpa)
    rw [bitAt, hleft, ← bitAt, bitAt_replicate_zero, eq_comm, decide_eq_false_iff_not]
    omega
  · have hlast : (List.replicate n (0 : UInt8) ++ [128]).getD (pos / 8) 0 = 128 := by
      rw [List.getD_append_right _ _ _ _ (by simp [heq])]
      simp [heq]
    have hbyte : ∀ i < 8, (128 : ℕ).testBit i = decide (i = 7) := by decide
    rw [bitAt, hlast]
    refine (hbyte _ (Nat.mod_lt _ (by decide))).trans (decide_eq_decide.2 ?_)
    omega
  · have hnone : (List.replicate n (0 : UInt8) ++ [128]).getD (pos / 8) 0 = 0 :=
      List.getD_eq_default _ _ (by simpa using Nat.succ_le_of_lt hgt)
    rw [bitAt, hnone, UInt8.toNat_zero, Nat.zero_testBit, eq_comm, decide_eq_false_iff_not]
    omega

/-- Where there is padding, the two have the same nonces, but not the same bytes. -/
theorem zeros_lastBit (hpadding : ¬ 4 ∣ edgeBits.toNat) :
    (zeros edgeBits hpos hle).getProofNonces = (lastBit edgeBits hpos hle).getProofNonces ∧
      (zeros edgeBits hpos hle).bits ≠ (lastBit edgeBits hpos hle).bits := by
  rw [← paddingLength_eq_zero_iff, paddingLength] at hpadding
  have hlen : 0 < cycleLength edgeBits.toNat := by
    have := length_lastBit edgeBits hpos
    rw [List.length_append, List.length_singleton] at this
    omega
  constructor
  · refine (getProofNonces_eq_iff (p := zeros edgeBits hpos hle)
      (q := lastBit edgeBits hpos hle) rfl).2 fun pos hlt => ?_
    have hne : pos ≠ 8 * (cycleLength edgeBits.toNat - 1) + 7 := by
      have : pos < edgeBits.toNat * proofSize := hlt
      omega
    rw [zeros, lastBit, bitAt_replicate_zero, bitAt_lastBit, decide_eq_false hne]
  · intro heq
    have hbit := congrArg (fun bits => bitAt bits (8 * (cycleLength edgeBits.toNat - 1) + 7)) heq
    simp [zeros, lastBit, bitAt_replicate_zero, bitAt_lastBit] at hbit

end Padded

variable {G : Global}

/-- **Proofs of work are malleable exactly in their padding**: the hash that is kept is that of the
packed nonces exactly when the bits behind the last nonce are clear; strings with the same nonces
are equal, and have the same hash, exactly when these bits are; and the nonces determine the string
for all proofs of a size exactly when there are no such bits. -/
theorem notMalleable_iff (hG : G.InjectiveOnBytes) :
    (∀ bytes p, run ProofOfWork.deserialize bytes = (.ok p, []) →
      (p.getHash G = p.cycleHash G ↔ ∀ b ∈ p.padding, b = false)) ∧
    (∀ a b p q, run ProofOfWork.deserialize a = (.ok p, []) →
      run ProofOfWork.deserialize b = (.ok q, []) →
      p.edgeBits = q.edgeBits → p.getProofNonces = q.getProofNonces →
      (a = b ↔ p.padding = q.padding) ∧ (p.getHash G = q.getHash G ↔ p.padding = q.padding)) ∧
    ∀ edgeBits : UInt8, 0 < edgeBits.toNat → edgeBits.toNat ≤ 63 →
      ((∀ a b p q, run ProofOfWork.deserialize a = (.ok p, []) →
        run ProofOfWork.deserialize b = (.ok q, []) →
        p.edgeBits = edgeBits → q.edgeBits = edgeBits → p.getProofNonces = q.getProofNonces →
        a = b) ↔ 4 ∣ edgeBits.toNat) := by
  have hbytes : ∀ p q : ProofOfWork, p.getHash G = q.getHash G ↔ p.bits = q.bits :=
    fun p q => ⟨fun h => hG _ _ h, fun h => by rw [getHash, getHash, h]⟩
  refine ⟨fun bytes p _ => ?_, fun a b p q ha hb hedge hnonces => ⟨?_, ?_⟩,
    fun edgeBits hpos hle => ⟨?_, ?_⟩⟩
  · rw [← serializeCycle_eq_iff, getHash, cycleHash]
    exact ⟨fun h => (hG _ _ h).symm, fun h => by rw [h]⟩
  · have hbits := bits_eq_iff hedge
    rw [run_deserialize_iff.1 ha, run_deserialize_iff.1 hb, hedge, List.cons_inj_right]
    exact ⟨fun h => (hbits.1 h).2, fun h => hbits.2 ⟨hnonces, h⟩⟩
  · have hbits := bits_eq_iff hedge
    rw [hbytes]
    exact ⟨fun h => (hbits.1 h).2, fun h => hbits.2 ⟨hnonces, h⟩⟩
  · intro h
    by_contra hpadding
    obtain ⟨hnonces, hne⟩ := zeros_lastBit edgeBits hpos hle hpadding
    have heq := h _ _ _ _ (run_deserialize_iff.2 rfl) (run_deserialize_iff.2 rfl) rfl rfl hnonces
    exact hne (List.cons_inj_right _ |>.1 heq)
  · rintro hdvd a b p q ha hb rfl hq hnonces
    have hzero := (paddingLength_eq_zero_iff p.edgeBits.toNat).2 hdvd
    have hpadding : p.padding = q.padding := by
      rw [padding, padding, hq, hzero]
      rfl
    rw [run_deserialize_iff.1 ha, run_deserialize_iff.1 hb, hq, List.cons_inj_right]
    exact (bits_eq_iff hq.symm).2 ⟨hnonces, hpadding⟩

/-- On the small network, graphs of size 32 leave no room for another hash. -/
theorem notMalleable_iff_smallNet :
    4 ∣ (32 : UInt8).toNat ∧ ∀ a b p q, run ProofOfWork.deserialize a = (.ok p, []) →
      run ProofOfWork.deserialize b = (.ok q, []) →
      p.edgeBits = 32 → q.edgeBits = 32 → p.getProofNonces = q.getProofNonces → a = b :=
  have hdvd : 4 ∣ (32 : UInt8).toNat := by decide
  ⟨hdvd, ((notMalleable_iff (SmallNet.injectiveOnBytes .mainnet)).2.2 32 (by decide)
    (by decide)).2 hdvd⟩

/-- Two strings for graphs of size 31 that are accepted with the same nonces; the second one is
kept with another hash than that of its nonces. -/
theorem not_notMalleable_lastBit :
    (¬ ∀ a b p q, run ProofOfWork.deserialize a = (.ok p, []) →
      run ProofOfWork.deserialize b = (.ok q, []) →
      p.edgeBits = q.edgeBits → p.getProofNonces = q.getProofNonces → a = b) ∧
    ¬ ∀ bytes p, run ProofOfWork.deserialize bytes = (.ok p, []) →
      p.getHash (smallNet .mainnet) = p.cycleHash (smallNet .mainnet) := by
  have hpos : 0 < (31 : UInt8).toNat := by decide
  have hle : (31 : UInt8).toNat ≤ 63 := by decide
  obtain ⟨hnonces, hne⟩ := zeros_lastBit 31 hpos hle (by decide)
  have hedge : (zeros 31 hpos hle).edgeBits = (lastBit 31 hpos hle).edgeBits := rfl
  generalize zeros 31 hpos hle = p, lastBit 31 hpos hle = q at hnonces hne hedge
  have hread : ∀ p : ProofOfWork,
      run ProofOfWork.deserialize (p.edgeBits :: p.bits) = (.ok p, []) :=
    fun p => run_deserialize_iff.2 rfl
  constructor
  · intro h
    have heq := h _ _ p q (hread p) (hread q) hedge hnonces
    exact hne (List.cons.inj heq).2
  · intro h
    have hclean : ∀ p : ProofOfWork, p.serializeCycle = p.bits := fun p =>
      (SmallNet.injectiveOnBytes .mainnet _ _ (h _ p (hread p))).symm
    rw [← hclean p, ← hclean q, serializeCycle_congr hedge hnonces] at hne
    exact hne rfl

end ProofOfWork

end GrinPlusPlus
