import GrinPlusPlus.Core.Global
import GrinPlusPlus.Lib.PostOrder

/-!
# Positions of the mountain ranges

`Index`, `LeafIndex`, `MMRUtil` and `BitUtil`. The loops of the source run over the tree
sizes `2 ^ k - 1`: they start at `FillOnesToRight(position)`, which has as many ones as the
position has binary digits (`GrinPlusPlus.BitUtil.fillOnesToRight_eq`), and shift to the
right until nothing is left. That is the recursion of `PostOrder.sub`,
`PostOrder.leafCount` and `PostOrder.peaksFrom` on the number of digits, and the functions
of this file are these.

Positions are natural numbers here. The one place where 64 bits matter is a size that a
header states: the largest one makes the count of its leaves overflow to zero
(`GrinPlusPlus.BlockHeader.getNumOutputs`).
-/

namespace GrinPlusPlus

open PostOrder

namespace BitUtil

/-- `BitUtil::FillOnesToRight`. -/
def fillOnesToRight (input : ℕ) : ℕ :=
  let x := input ||| input >>> 1
  let x := x ||| x >>> 2
  let x := x ||| x >>> 4
  let x := x ||| x >>> 8
  let x := x ||| x >>> 16
  x ||| x >>> 32

/-- One step of the cascade: a bit is set when one of twice as many bits above it is. -/
theorem testBit_fill {x y d : ℕ} (h : ∀ i, y.testBit i = true ↔ ∃ j < d, x.testBit (i + j) = true)
    (i : ℕ) : (y ||| y >>> d).testBit i = true ↔ ∃ j < d + d, x.testBit (i + j) = true := by
  rw [Nat.testBit_or, Bool.or_eq_true, Nat.testBit_shiftRight, h, h]
  constructor
  · rintro (⟨j, hj, hx⟩ | ⟨j, hj, hx⟩)
    · exact ⟨j, by omega, hx⟩
    · exact ⟨d + j, by omega, by rwa [show i + (d + j) = d + i + j by omega]⟩
  · rintro ⟨j, hj, hx⟩
    rcases Nat.lt_or_ge j d with hlt | hge
    · exact .inl ⟨j, hlt, hx⟩
    · exact .inr ⟨j - d, by omega, by rwa [show d + i + (j - d) = i + j by omega]⟩

theorem testBit_fillOnesToRight (input i : ℕ) :
    (fillOnesToRight input).testBit i = true ↔ ∃ j < 64, input.testBit (i + j) = true := by
  have h0 : ∀ i, input.testBit i = true ↔ ∃ j < 1, input.testBit (i + j) = true := by
    intro i
    constructor
    · exact fun h => ⟨0, by omega, h⟩
    · rintro ⟨j, hj, h⟩
      obtain rfl : j = 0 := by omega
      exact h
  have h1 := testBit_fill h0
  have h2 := testBit_fill h1
  have h3 := testBit_fill h2
  have h4 := testBit_fill h3
  have h5 := testBit_fill h4
  exact testBit_fill h5 i

/-- **The tree sizes of the loops**: for a 64-bit number the cascade sets every bit below
the highest one. -/
theorem fillOnesToRight_eq {input : ℕ} (h : input < 2 ^ 64) :
    fillOnesToRight input = 2 ^ bitLength input - 1 := by
  refine Nat.eq_of_testBit_eq fun i => ?_
  rw [Nat.testBit_two_pow_sub_one, Bool.eq_iff_iff, testBit_fillOnesToRight, decide_eq_true_eq]
  constructor
  · rintro ⟨j, -, hj⟩
    by_contra hle
    have hlt : input < 2 ^ (i + j) :=
      lt_of_lt_of_le (lt_two_pow_bitLength input) (Nat.pow_le_pow_right (by decide) (by omega))
    rw [Nat.testBit_lt_two_pow hlt] at hj
    cases hj
  · intro hi
    obtain ⟨k, hk⟩ : ∃ k, bitLength input = k + 1 := ⟨bitLength input - 1, by omega⟩
    have hle : 2 ^ k ≤ input := two_pow_le_of_bitLength hk
    have hlt : input < 2 ^ (k + 1) := hk ▸ lt_two_pow_bitLength input
    have hk64 : k < 64 := by
      by_contra hge
      have : 2 ^ 64 ≤ 2 ^ k := Nat.pow_le_pow_right (by decide) (by omega)
      omega
    refine ⟨k - i, by omega, ?_⟩
    rw [show i + (k - i) = k by omega]
    exact Nat.testBit_of_two_pow_le_and_two_pow_add_one_gt hle hlt

end BitUtil

namespace Index

/-- `Index::CalculateHeight`. -/
def calculateHeight (position : ℕ) : ℕ :=
  PostOrder.height position

/-- `Index::CalculateLeafIndex`. -/
def calculateLeafIndex (position : ℕ) : ℕ :=
  leafCount (bitLength position) position

/-- `Index::GetLeftChild` of a position of height `height`. -/
def getLeftChild (position height : ℕ) : ℕ :=
  position - 2 ^ height

/-- `Index::GetRightChild`. -/
def getRightChild (position : ℕ) : ℕ :=
  position - 1

end Index

/-- `LeafIndex::At(leafIndex).GetPosition()`. -/
def leafPosition (leafIndex : ℕ) : ℕ :=
  leafPos leafIndex

/-- `MMRUtil::GetPeakIndices`: no peaks when a rest is left. -/
def getPeakIndices (size : ℕ) : List ℕ :=
  if PostOrder.sub (bitLength size) size = 0 then peaksFrom (bitLength size) 0 size else []

/-- `BlockHeader::GetNumOutputs`; the count overflows for the largest size. -/
def BlockHeader.getNumOutputs (h : BlockHeader) : ℕ :=
  Index.calculateLeafIndex h.getOutputMMRSize % 2 ^ 63

/-- `BlockHeader::GetNumKernels`; the count overflows for the largest size. -/
def BlockHeader.getNumKernels (h : BlockHeader) : ℕ :=
  Index.calculateLeafIndex h.getKernelMMRSize % 2 ^ 63

/-! ### Sizes of closed ranges -/

/-- The digits of the size of a closed range leave room for its leaves. -/
theorem lt_two_pow_bitLength_leafPos (n : ℕ) : n < 2 ^ bitLength (leafPos n) :=
  lt_of_le_of_lt (le_leafPos n) (lt_two_pow_bitLength _)

theorem calculateLeafIndex_leafPos (n : ℕ) : Index.calculateLeafIndex (leafPos n) = n :=
  (sub_leafPos (lt_two_pow_bitLength_leafPos n)).2

/-- Every size lies between the sizes of two closed ranges, and counts the leaves of the first. -/
theorem leafPos_le_size (size : ℕ) :
    leafPos (Index.calculateLeafIndex size) ≤ size ∧
      size < leafPos (Index.calculateLeafIndex size + 1) ∧
      PostOrder.sub (bitLength size) size = size - leafPos (Index.calculateLeafIndex size) := by
  obtain ⟨n, -, h1, h2⟩ := exists_leafPos_le (n := size + 1)
    (lt_of_lt_of_le (Nat.lt_succ_self size) (le_leafPos (size + 1)))
  have hn : n < 2 ^ bitLength size :=
    lt_of_le_of_lt ((le_leafPos n).trans h1) (lt_two_pow_bitLength size)
  obtain ⟨hsub, hcount⟩ := sub_between hn h1 fun _ => h2
  have hleaves : Index.calculateLeafIndex size = n := hcount
  rw [hleaves]
  exact ⟨h1, h2, hsub⟩

/-- The size of a range that is not closed has no peaks. -/
theorem getPeakIndices_of_ne {size : ℕ} (h : size ≠ leafPos (Index.calculateLeafIndex size)) :
    getPeakIndices size = [] := by
  obtain ⟨hle, -, hsub⟩ := leafPos_le_size size
  rw [getPeakIndices, if_neg]
  omega

/-- The size of a closed range has peaks. -/
theorem getPeakIndices_leafPos (n : ℕ) :
    getPeakIndices (leafPos n) = peaksFrom (bitLength (leafPos n)) 0 (leafPos n) := by
  rw [getPeakIndices, if_pos (sub_leafPos (lt_two_pow_bitLength_leafPos n)).1]

end GrinPlusPlus
