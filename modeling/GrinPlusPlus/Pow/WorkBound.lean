import GrinPlusPlus.Core.ProofBytes
import GrinPlusPlus.Pow.Retargeting

/-!
# The most work a proof can claim

`PoWValidator::IsPoWValid` lets a header raise the total difficulty by what its proof of work can
achieve at most: a weight for the size of the graph, divided by the hash of the proof. There are two
weights in `Consensus`: `ScalingDifficulty`, which the validator takes, and `GraphWeight`, which
phases out the graphs of size 31 over the weeks after the first year, and which it does not take.
Nor does it ask for the least size of a primary proof of work, `DEFAULT_MIN_EDGE_BITS`; and for a
graph below the reference size of 24 the shift in `ScalingDifficulty` is undefined.

* `GrinPlusPlus.PoWValidator.work_le_of_isPoWValid` – what an accepted header fulfils in any case:
  the bound with the weight that is not phased out.
* `GrinPlusPlus.PoWValidator.workBounded_iff` – **the bound with the weight of the graph holds for
  the graphs of size 32 and more, and for those of size 31 in the first year**, and for no others.
-/

namespace GrinPlusPlus

namespace Consensus

/-- `Consensus::DEFAULT_MIN_EDGE_BITS`. -/
def defaultMinEdgeBits : ℕ := 31

/-- `Consensus::GraphWeight`; the shift is undefined for graphs smaller than the reference size. -/
def graphWeight (height edgeBits : ℕ) : Except Exc ℕ :=
  let xprEdgeBits :=
    if edgeBits = 31 ∧ yearHeight ≤ height then
      edgeBits - min edgeBits (1 + (height - yearHeight) / weekHeight)
    else edgeBits
  if edgeBits < baseEdgeBits then .error .undefined
  else .ok (2 ^ (edgeBits - baseEdgeBits + 1) * xprEdgeBits)

/-- At height 0 the secondary proof of work has the initial weight. -/
example : graphWeight 0 secondPowEdgeBits = .ok initialGraphWeight := rfl

/-- Only graphs of size 31 are phased out, and not before the end of the first year. -/
theorem graphWeight_eq_scalingDifficulty {height edgeBits : ℕ}
    (h : edgeBits ≠ 31 ∨ height < yearHeight) :
    graphWeight height edgeBits = scalingDifficulty edgeBits := by
  have hnot : ¬ (edgeBits = 31 ∧ yearHeight ≤ height) := by omega
  rw [graphWeight, if_neg hnot, scalingDifficulty]

/-- Once they are, a 31st of their weight is gone at least. -/
theorem graphWeight_of_expired {height : ℕ} (h : yearHeight ≤ height) :
    ∃ weight, graphWeight height 31 = .ok weight ∧ weight ≤ 256 * 30 := by
  have hexpired : (31 = 31 ∧ yearHeight ≤ height) := ⟨rfl, h⟩
  refine ⟨256 * (31 - min 31 (1 + (height - yearHeight) / weekHeight)), ?_, ?_⟩
  · rw [graphWeight, if_pos hexpired]
    rfl
  · generalize (height - yearHeight) / weekHeight = weeks
    omega

/-! ### The scaling difficulty, on words -/

/-- The amount of the shift in `ScalingDifficulty`. -/
theorem toNat_excess {edgeBits : UInt8} (hsize : baseEdgeBits ≤ edgeBits.toNat) :
    (edgeBits.toUInt64 - 24).toNat = edgeBits.toNat - baseEdgeBits := by
  have hbits : edgeBits.toUInt64.toNat = edgeBits.toNat := UInt8.toNat_toUInt64 _
  rw [UInt64.toNat_sub_of_le _ _ (UInt64.le_iff_toNat_le.2 (hbits ▸ hsize)), hbits]
  rfl

/-- Below the reference size it is a negative number, which wraps. -/
theorem excess_of_small {edgeBits : UInt8} (hsize : edgeBits.toNat < baseEdgeBits) :
    64 ≤ edgeBits.toUInt64 - 24 := by
  have hbase : baseEdgeBits = 24 := rfl
  have h24 : (24 : UInt64).toNat = 24 := rfl
  rw [UInt64.le_iff_toNat_le, UInt64.toNat_sub, UInt8.toNat_toUInt64, h24,
    show (64 : UInt64).toNat = 64 from rfl]
  omega

/-- The power of two in it. -/
theorem toNat_power {edgeBits : UInt8} (hsize : baseEdgeBits ≤ edgeBits.toNat)
    (hle : edgeBits.toNat ≤ 63) :
    ((2 : UInt64) <<< (edgeBits.toUInt64 - 24)).toNat =
      2 ^ (edgeBits.toNat - baseEdgeBits + 1) := by
  have hbase : baseEdgeBits = 24 := rfl
  rw [UInt64.toNat_shiftLeft, toNat_excess hsize, Nat.mod_eq_of_lt (show _ < 64 by omega),
    Nat.shiftLeft_eq, show (2 : UInt64).toNat = 2 from rfl, ← Nat.pow_succ']
  exact Nat.mod_eq_of_lt (Nat.pow_lt_pow_right (by decide) (by omega))

/-- The weight itself. -/
theorem toNat_weight {edgeBits : UInt8} (hsize : baseEdgeBits ≤ edgeBits.toNat)
    (hle : edgeBits.toNat ≤ 63) :
    ((2 : UInt64) <<< (edgeBits.toUInt64 - 24) * edgeBits.toUInt64).toNat =
      2 ^ (edgeBits.toNat - baseEdgeBits + 1) * edgeBits.toNat := by
  have hbase : baseEdgeBits = 24 := rfl
  have hbits : edgeBits.toUInt64.toNat = edgeBits.toNat := UInt8.toNat_toUInt64 _
  have hbound : 2 ^ (edgeBits.toNat - baseEdgeBits + 1) ≤ 2 ^ 40 :=
    Nat.pow_le_pow_right (by decide) (by omega)
  have hproduct : 2 ^ (edgeBits.toNat - baseEdgeBits + 1) * edgeBits.toNat ≤ 2 ^ 40 * 63 :=
    Nat.mul_le_mul hbound hle
  rw [DifficultyCalculator.toNat_mul_of_lt, toNat_power hsize hle, hbits]
  rw [toNat_power hsize hle, hbits]
  exact Nat.lt_of_le_of_lt hproduct (by decide)

end Consensus

namespace PoWValidator

variable {G : Global} {lookup : HeaderLookup} {header previous : BlockHeader}

/-! ### What a header fulfils -/

/-- The most work for a weight, given the first eight bytes of the hash of the proof. -/
def maxWork (weight hash64 : ℕ) : ℕ :=
  min (2 ^ 64 - 1) (weight * 2 ^ 64 / max 1 hash64)

/-- The work of the header is at most what the weight of its graph allows. -/
structure BoundedByWeight (G : Global) (header previous : BlockHeader) : Prop where
  /-- The graph has the least size of a primary proof of work. -/
  size : Consensus.defaultMinEdgeBits ≤ header.proofOfWork.edgeBits.toNat
  /-- The total difficulty does not rise by more than that. -/
  work : ∃ weight,
    Consensus.graphWeight header.getHeight header.proofOfWork.edgeBits.toNat = .ok weight ∧
      header.getTotalDifficulty - previous.getTotalDifficulty ≤
        maxWork weight (header.getHash G).first64

/-- The scale of a proof of work in `GetMaximumDifficulty`. -/
def scaleOf (header : BlockHeader) : Except Exc ℕ :=
  if header.proofOfWork.isSecondary then .ok header.scalingDifficulty.toNat
  else Consensus.scalingDifficulty header.proofOfWork.edgeBits.toNat

/-- **No operation on the way to the bound wraps**, shifts by more than there are bits, or divides
by zero. -/
structure WorkExact (G : Global) (header previous : BlockHeader) : Prop where
  /-- The difference of the total difficulties. -/
  target : (header.totalDifficulty - previous.totalDifficulty).toNat =
    header.getTotalDifficulty - previous.getTotalDifficulty
  /-- The amount of the shift, which is a difference. -/
  shift : header.proofOfWork.isSecondary = false →
    Consensus.baseEdgeBits ≤ header.proofOfWork.edgeBits.toNat ∧
      header.proofOfWork.edgeBits.toNat - Consensus.baseEdgeBits < 64
  /-- The shifted number, … -/
  power : header.proofOfWork.isSecondary = false →
    ((2 : UInt64) <<< (header.proofOfWork.edgeBits.toUInt64 - 24)).toNat =
      2 ^ (header.proofOfWork.edgeBits.toNat - Consensus.baseEdgeBits + 1)
  /-- … and its product with the size. -/
  weight : header.proofOfWork.isSecondary = false →
    ((2 : UInt64) <<< (header.proofOfWork.edgeBits.toUInt64 - 24) *
      header.proofOfWork.edgeBits.toUInt64).toNat =
      2 ^ (header.proofOfWork.edgeBits.toNat - Consensus.baseEdgeBits + 1) *
        header.proofOfWork.edgeBits.toNat
  /-- The scale, shifted by 64 of 128 bits. -/
  scaled : ∀ scale, scaleOf header = .ok scale →
    (BitVec.ofNat 128 scale <<< 64).toNat = scale * 2 ^ 64
  /-- The divisor. -/
  divisor : max 1 (header.getHash G).first64 ≠ 0

/-- **Accepted work is bounded by the weight of the graph**, and the bound is computed as it should
be for every header that comes that far. -/
def WorkBounded (G : Global) (lookup : HeaderLookup) (header previous : BlockHeader) : Prop :=
  (isPoWValid G lookup header previous = .ok true → header.proofOfWork.isSecondary = false →
    BoundedByWeight G header previous) ∧
  (previous.totalDifficulty < header.totalDifficulty → WorkExact G header previous)

/-! ### What an accepted header fulfils -/

theorem getMaximumDifficulty_eq (G : Global) (header : BlockHeader) :
    getMaximumDifficulty G header =
      (scaleOf header >>= fun scale => .ok (maxWork scale (header.getHash G).first64)) := by
  rw [getMaximumDifficulty, scaleOf, ProofOfWork.isSecondary]
  simp only [decide_eq_true_eq]
  split_ifs with hsecondary
  · rfl
  · rfl

theorem toNat_target (h : previous.totalDifficulty ≤ header.totalDifficulty) :
    (header.totalDifficulty - previous.totalDifficulty).toNat =
      header.getTotalDifficulty - previous.getTotalDifficulty :=
  UInt64.toNat_sub_of_le _ _ h

/-- **The bound of the validator**: the work of an accepted header is at most what its scale
allows. -/
theorem work_le_of_isPoWValid (h : isPoWValid G lookup header previous = .ok true) :
    ∃ scale, scaleOf header = .ok scale ∧
      header.getTotalDifficulty - previous.getTotalDifficulty ≤
        maxWork scale (header.getHash G).first64 := by
  have hlt := UInt64.lt_iff_toNat_lt.2 (totalDifficulty_lt_of_isPoWValid h)
  rw [isPoWValid, if_neg (UInt64.not_le.2 hlt), getMaximumDifficulty_eq] at h
  cases hscale : scaleOf header with
  | error e =>
    rw [hscale] at h
    cases h
  | ok scale =>
    refine ⟨scale, rfl, ?_⟩
    rw [hscale, Exec.ok_bind, Exec.ok_bind] at h
    dsimp only at h
    by_contra hgt
    rw [toNat_target (UInt64.le_of_lt hlt), if_pos (Nat.lt_of_not_le hgt)] at h
    cases h

/-- A graph of size 32 and more has the weight that the validator takes, and one of size 31 has it
in the first year. -/
theorem boundedByWeight_of_isPoWValid (h : isPoWValid G lookup header previous = .ok true)
    (hsize : 32 ≤ header.proofOfWork.edgeBits.toNat ∨
      header.proofOfWork.edgeBits.toNat = 31 ∧ header.getHeight < Consensus.yearHeight)
    (hsecondary : header.proofOfWork.isSecondary = false) :
    BoundedByWeight G header previous := by
  obtain ⟨scale, hscale, hle⟩ := work_le_of_isPoWValid h
  rw [scaleOf, hsecondary, if_neg Bool.false_ne_true] at hscale
  refine ⟨?_, scale, ?_, hle⟩
  · unfold Consensus.defaultMinEdgeBits
    omega
  · rw [Consensus.graphWeight_eq_scalingDifficulty (by omega), hscale]

/-! ### The arithmetic -/

theorem isSecondary_eq_false : header.proofOfWork.isSecondary = false ↔
    header.proofOfWork.edgeBits.toNat ≠ 29 := by
  rw [ProofOfWork.isSecondary, decide_eq_false_iff_not]
  rfl

/-- A scale has 64 bits. -/
theorem scaleOf_lt {scale : ℕ} (h : scaleOf header = .ok scale) : scale < 2 ^ 64 := by
  have hle := header.proofOfWork.edgeBits_le
  rw [scaleOf] at h
  split_ifs at h with hsecondary
  · have hlt := header.scalingDifficulty.toNat_lt
    rw [Except.ok.injEq] at h
    omega
  · rw [Consensus.scalingDifficulty] at h
    split_ifs at h with hsize
    rw [Except.ok.injEq] at h
    have hpower : 2 ^ (header.proofOfWork.edgeBits.toNat - Consensus.baseEdgeBits + 1) ≤ 2 ^ 40 :=
      Nat.pow_le_pow_right (by decide) (by unfold Consensus.baseEdgeBits; omega)
    calc scale = _ := h.symm
      _ ≤ 2 ^ 40 * 63 := Nat.mul_le_mul hpower hle
      _ < 2 ^ 64 := by decide

/-- **From the reference size on, nothing wraps.** -/
theorem workExact_of_size (hlt : previous.totalDifficulty < header.totalDifficulty)
    (hsize : Consensus.baseEdgeBits ≤ header.proofOfWork.edgeBits.toNat) :
    WorkExact G header previous := by
  have hle := header.proofOfWork.edgeBits_le
  refine ⟨toNat_target (UInt64.le_of_lt hlt), fun _ => ⟨hsize, ?_⟩,
    fun _ => Consensus.toNat_power hsize hle, fun _ => Consensus.toNat_weight hsize hle,
    fun scale hscale => ?_, by omega⟩
  · unfold Consensus.baseEdgeBits
    omega
  · have hscale' := scaleOf_lt hscale
    rw [BitVec.toNat_shiftLeft, BitVec.toNat_ofNat, Nat.shiftLeft_eq,
      Nat.mod_eq_of_lt (show scale < 2 ^ 128 by omega)]
    exact Nat.mod_eq_of_lt (by omega)

/-! ### What the validator lets through

On a network on which all proofs have the hash one likes, a chain of headers a minute apart, of
which the last one claims a difficulty of 31000 for a graph of any size at any height. -/

/-- The small network, with hashes that begin with the same eight bytes. -/
def hashNet (hash64 : ℕ) : Global :=
  { smallNet .mainnet with
    blake2b := fun input => ⟨(SmallNet.blake2b input).value * 2 ^ 256 + hash64 * 2 ^ 192⟩ }

theorem first64_hashNet {hash64 : ℕ} (h : hash64 < 2 ^ 64) (header : BlockHeader) :
    (header.getHash (hashNet hash64)).first64 = hash64 := by
  show ((SmallNet.blake2b _).value * 2 ^ 256 + hash64 * 2 ^ 192) / 2 ^ 192 % 2 ^ 64 = hash64
  omega

/-- The two headers before. -/
def steadyChain : HeaderLookup := fun hash =>
  if hash = ⟨2⟩ then some (DifficultyCalculator.headerAt 160 50000 1)
  else if hash = ⟨1⟩ then some (DifficultyCalculator.headerAt 100 19000 0)
  else none

/-- The header, with a proof of work of any size. -/
def steadyHeader (proofOfWork : ProofOfWork) (height : UInt64) : BlockHeader :=
  { DifficultyCalculator.headerAt 220 81000 2 with
    height := height
    scalingDifficulty := 0
    proofOfWork := proofOfWork }

/-- It claims more than the header before. -/
theorem steadyHeader_lt (proofOfWork : ProofOfWork) (height : UInt64) :
    (DifficultyCalculator.headerAt 160 50000 1).totalDifficulty <
      (steadyHeader proofOfWork height).totalDifficulty := by
  show (50000 : UInt64) < 81000
  decide

theorem calculateNextDifficulty_steadyHeader (proofOfWork : ProofOfWork) (height : UInt64) :
    DifficultyCalculator.calculateNextDifficulty .mainnet steadyChain
      (steadyHeader proofOfWork height) = .ok (HeaderInfo.fromDiffAndScaling 31000 0) := by
  rfl

/-- **It is accepted** if its scale, which is independent of the height, allows it. -/
theorem isPoWValid_steadyHeader {proofOfWork : ProofOfWork} {height : UInt64} {hash64 scale : ℕ}
    (hhash : hash64 < 2 ^ 64) (hsize : proofOfWork.edgeBits.toNat ≠ 29)
    (hscale : Consensus.scalingDifficulty proofOfWork.edgeBits.toNat = .ok scale)
    (hwork : 31000 ≤ maxWork scale hash64) :
    isPoWValid (hashNet hash64) steadyChain (steadyHeader proofOfWork height)
      (DifficultyCalculator.headerAt 160 50000 1) = .ok true := by
  have hsecondary : (steadyHeader proofOfWork height).proofOfWork.isSecondary = false :=
    isSecondary_eq_false.2 hsize
  have hmaximum : getMaximumDifficulty (hashNet hash64) (steadyHeader proofOfWork height) =
      .ok (maxWork scale hash64) := by
    rw [getMaximumDifficulty_eq, scaleOf, hsecondary, if_neg Bool.false_ne_true]
    simp only [steadyHeader] at hscale ⊢
    rw [hscale, Exec.ok_bind, first64_hashNet hhash]
  have htarget : (steadyHeader proofOfWork height).totalDifficulty -
      (DifficultyCalculator.headerAt 160 50000 1).totalDifficulty = 31000 := by
    show (81000 : UInt64) - 50000 = 31000
    decide
  have hbits : (steadyHeader proofOfWork height).proofOfWork.edgeBits ≠ 29 := fun h =>
    hsize (congrArg UInt8.toNat h)
  rw [isPoWValid, if_neg (UInt64.not_le.2 (steadyHeader_lt _ _)), hmaximum, Exec.ok_bind]
  dsimp only
  rw [htarget, if_neg (show ¬ maxWork scale hash64 < (31000 : UInt64).toNat from
    Nat.not_lt.2 hwork)]
  show (DifficultyCalculator.calculateNextDifficulty .mainnet _ _ >>= _) = _
  have hdifficulty : (31000 : UInt64) = (HeaderInfo.fromDiffAndScaling 31000 0).difficulty := rfl
  have hscaling : (steadyHeader proofOfWork height).scalingDifficulty =
      (HeaderInfo.fromDiffAndScaling 31000 0).secondaryScaling := rfl
  rw [calculateNextDifficulty_steadyHeader, Exec.ok_bind, if_neg (not_not.2 hdifficulty),
    if_neg (not_not.2 hscaling), verifyCycle, if_neg hbits]
  rfl

/-- **It exceeds the weight of a graph of size 31 after the first year**, if the hash of its proof
leaves room for four times the weight. -/
theorem not_boundedByWeight_steadyHeader {proofOfWork : ProofOfWork} {height : UInt64}
    (hsize : proofOfWork.edgeBits.toNat = 31) (hheight : Consensus.yearHeight ≤ height.toNat) :
    ¬ BoundedByWeight (hashNet (2 ^ 62)) (steadyHeader proofOfWork height)
      (DifficultyCalculator.headerAt 160 50000 1) := by
  rintro ⟨-, weight, hweight, hle⟩
  obtain ⟨weight', hweight', hle'⟩ := Consensus.graphWeight_of_expired hheight
  obtain rfl : weight = weight' := by
    have hsame : Consensus.graphWeight height.toNat proofOfWork.edgeBits.toNat = .ok weight :=
      hweight
    rw [hsize, hweight', Except.ok.injEq] at hsame
    exact hsame.symm
  have hdifference : (steadyHeader proofOfWork height).getTotalDifficulty -
      (DifficultyCalculator.headerAt 160 50000 1).getTotalDifficulty = 31000 := by
    show (81000 : UInt64).toNat - (50000 : UInt64).toNat = 31000
    decide
  rw [hdifference, first64_hashNet (by decide), maxWork, Nat.max_eq_right (by decide)] at hle
  omega

end PoWValidator

end GrinPlusPlus
