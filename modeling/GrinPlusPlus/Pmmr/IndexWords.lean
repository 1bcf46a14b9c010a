import GrinPlusPlus.Pmmr.SegmentTree

/-!
# Positions as machine words

`Index`, `LeafIndex` and `BitUtil` once more, in the arithmetic they are written in: positions
and heights are 64-bit words, and the loops shift a tree size `2 ^ k - 1` to the right until
nothing is left of it.

* `GrinPlusPlus.Word.Index.toNat_calculateHeight` – the height needs no bound: the loop is the
  greedy subtraction `PostOrder.sub` for every word;
* `GrinPlusPlus.Word.Index.toNat_calculateLeafIndex` – the count of the leaves does, for
  `(peakSize + 1) / 2` is zero when the tree size is the largest word;
* `GrinPlusPlus.Word.LeafIndex.toNat_at` – `2 * n - CountBitsSet(n)` is right up to `2 ^ 63`,
  where the product has already wrapped around.

Going up from a position below `2 ^ 63` stays below `2 ^ 64`
(`GrinPlusPlus.Word.parent_lt_of_lt`), so the navigation there is the one on natural numbers.
-/

namespace GrinPlusPlus.Word

open PostOrder

/-! ### The loops over the tree sizes -/

theorem toNat_shiftRight_one (x : UInt64) : (x >>> 1).toNat = x.toNat / 2 := by
  rw [UInt64.toNat_shiftRight]
  exact Nat.shiftRight_eq_div_pow x.toNat 1

/-- The loops end. -/
theorem toNat_shiftRight_one_lt {x : UInt64} (h : ¬x = 0) : (x >>> 1).toNat < x.toNat := by
  have hpos : x.toNat ≠ 0 := fun h0 => h (UInt64.toNat_inj.1 h0)
  rw [toNat_shiftRight_one]
  omega

/-- The next smaller tree size. -/
theorem toNat_shiftRight_ones {peakSize : UInt64} {k : ℕ}
    (h : peakSize.toNat = 2 ^ (k + 1) - 1) : (peakSize >>> 1).toNat = 2 ^ k - 1 := by
  have hpos : 0 < 2 ^ k := Nat.two_pow_pos k
  rw [toNat_shiftRight_one, h, pow_succ]
  omega

theorem ne_zero_of_ones {peakSize : UInt64} {k : ℕ} (h : peakSize.toNat = 2 ^ (k + 1) - 1) :
    ¬peakSize = 0 := by
  have hpos : 0 < 2 ^ k := Nat.two_pow_pos k
  rintro rfl
  rw [pow_succ, UInt64.toNat_zero] at h
  omega

namespace BitUtil

/-- `BitUtil::FillOnesToRight`. -/
def fillOnesToRight (input : UInt64) : UInt64 :=
  let x := input ||| input >>> 1
  let x := x ||| x >>> 2
  let x := x ||| x >>> 4
  let x := x ||| x >>> 8
  let x := x ||| x >>> 16
  x ||| x >>> 32

/-- **The first tree size** has the digits of the word, all of them set. -/
theorem toNat_fillOnesToRight (input : UInt64) :
    (fillOnesToRight input).toNat = 2 ^ bitLength input.toNat - 1 := by
  rw [← BitUtil.fillOnesToRight_eq (UInt64.toNat_lt input)]
  simp only [fillOnesToRight, UInt64.toNat_or, UInt64.toNat_shiftRight]
  rfl

/-- The loop of `BitUtil::CountBitsSet`. -/
def countBitsSetFrom (n : UInt64) (count : UInt8) : UInt8 :=
  if n = 0 then count else countBitsSetFrom (n >>> 1) (count + (n &&& 1).toUInt8)
termination_by n.toNat
decreasing_by exact toNat_shiftRight_one_lt (by assumption)

/-- `BitUtil::CountBitsSet`. -/
def countBitsSet (input : UInt64) : UInt8 :=
  countBitsSetFrom input 0

theorem toNat_countBitsSetFrom (n : UInt64) (count : UInt8) :
    (countBitsSetFrom n count).toNat = (count.toNat + ones n.toNat) % 256 := by
  fun_induction countBitsSetFrom n count with
  | case1 count =>
    rw [UInt64.toNat_zero, ones_zero, Nat.add_zero]
    exact (Nat.mod_eq_of_lt count.toNat_lt).symm
  | case2 n count hn ih =>
    have hbit : (n &&& 1).toUInt8.toNat = n.toNat % 2 := by
      have hand : (n &&& 1).toNat = n.toNat % 2 := by
        rw [UInt64.toNat_and]
        exact Nat.and_one_is_mod n.toNat
      rw [UInt64.toNat_toUInt8, hand]
      omega
    rw [ih, UInt8.toNat_add, hbit, toNat_shiftRight_one, ones_div_two n.toNat]
    omega

/-- **The count of the bits** is exact: a byte has room for it. -/
theorem toNat_countBitsSet (input : UInt64) :
    (countBitsSet input).toNat = ones input.toNat := by
  have hle : ones input.toNat ≤ 64 := ones_le_of_lt (UInt64.toNat_lt input)
  rw [countBitsSet, toNat_countBitsSetFrom, UInt8.toNat_zero, Nat.zero_add]
  exact Nat.mod_eq_of_lt (by omega)

end BitUtil

/-! ### Indices -/

/-- `Index`: a position with its height. -/
structure Index where
  /-- `m_position`. -/
  position : UInt64
  /-- `m_height`. -/
  height : UInt64
deriving DecidableEq

namespace Index

/-- The loop of `Index::CalculateHeight`. -/
def calculateHeightFrom (height peakSize : UInt64) : UInt64 :=
  if peakSize = 0 then height
  else
    calculateHeightFrom (if peakSize ≤ height then height - peakSize else height) (peakSize >>> 1)
termination_by peakSize.toNat
decreasing_by exact toNat_shiftRight_one_lt (by assumption)

/-- `Index::CalculateHeight`. -/
def calculateHeight (position : UInt64) : UInt64 :=
  calculateHeightFrom position (BitUtil.fillOnesToRight position)

/-- The loop of `Index::CalculateLeafIndex`. -/
def calculateLeafIndexFrom (leafIndex numLeft peakSize : UInt64) : UInt64 :=
  if peakSize = 0 then leafIndex
  else if peakSize ≤ numLeft then
    calculateLeafIndexFrom (leafIndex + (peakSize + 1) / 2) (numLeft - peakSize) (peakSize >>> 1)
  else calculateLeafIndexFrom leafIndex numLeft (peakSize >>> 1)
termination_by peakSize.toNat
decreasing_by all_goals exact toNat_shiftRight_one_lt (by assumption)

/-- `Index::CalculateLeafIndex`. -/
def calculateLeafIndex (position : UInt64) : UInt64 :=
  calculateLeafIndexFrom 0 position (BitUtil.fillOnesToRight position)

/-- `Index::At`. -/
def ofPosition (position : UInt64) : Index :=
  ⟨position, calculateHeight position⟩

/-- `Index::GetLeafIndex`. That the index is a leaf is only asserted: the count of the leaves of a
size asks for any index. -/
def getLeafIndex (i : Index) : UInt64 :=
  calculateLeafIndex i.position

/-- `Index::GetParent`. -/
def getParent (i : Index) : Index :=
  if calculateHeight (i.position + 1) = i.height + 1 then ⟨i.position + 1, i.height + 1⟩
  else ⟨i.position + (1 : UInt64) <<< (i.height + 1), i.height + 1⟩

/-- `Index::GetSibling`. -/
def getSibling (i : Index) : Index :=
  if calculateHeight (i.position + 1) = i.height + 1 then
    ⟨i.position + 1 - (1 : UInt64) <<< (i.height + 1), i.height⟩
  else ⟨i.position + (1 : UInt64) <<< (i.height + 1) - 1, i.height⟩

/-- `Index::GetLeftChild`. -/
def getLeftChild (i : Index) : Index :=
  ⟨i.position - (1 : UInt64) <<< i.height, i.height - 1⟩

/-- `Index::GetRightChild`. -/
def getRightChild (i : Index) : Index :=
  ⟨i.position - 1, i.height - 1⟩

theorem toNat_calculateHeightFrom {k : ℕ} {height peakSize : UInt64}
    (h : peakSize.toNat = 2 ^ k - 1) :
    (calculateHeightFrom height peakSize).toNat = PostOrder.sub k height.toNat := by
  induction k generalizing height peakSize with
  | zero =>
    rw [calculateHeightFrom, if_pos (UInt64.toNat_inj.1 h)]
    rfl
  | succ k ih =>
    rw [calculateHeightFrom, if_neg (ne_zero_of_ones h), ih (toNat_shiftRight_ones h), sub, ← h]
    congr 1
    simp only [UInt64.le_iff_toNat_le]
    split
    · next hle => exact UInt64.toNat_sub_of_le _ _ (UInt64.le_iff_toNat_le.2 hle)
    · rfl

/-- **The height of a word** is the height of its position. -/
theorem toNat_calculateHeight (position : UInt64) :
    (calculateHeight position).toNat = PostOrder.height position.toNat := by
  have hlt := lt_two_pow_bitLength position.toNat
  have hroom : position.toNat + 1 < 2 ^ (bitLength position.toNat + 1) := by
    rw [pow_succ]
    omega
  rw [calculateHeight, toNat_calculateHeightFrom (BitUtil.toNat_fillOnesToRight position),
    sub_eq_heightIn hroom, height_eq hroom]

theorem toNat_calculateLeafIndexFrom {k : ℕ} (hk : k ≤ 63) {leafIndex numLeft peakSize : UInt64}
    (h : peakSize.toNat = 2 ^ k - 1) :
    (calculateLeafIndexFrom leafIndex numLeft peakSize).toNat =
      (leafIndex.toNat + leafCount k numLeft.toNat) % 2 ^ 64 := by
  induction k generalizing leafIndex numLeft peakSize with
  | zero =>
    rw [calculateLeafIndexFrom, if_pos (UInt64.toNat_inj.1 h), leafCount, Nat.add_zero]
    exact (Nat.mod_eq_of_lt leafIndex.toNat_lt).symm
  | succ k ih =>
    have hpos : 0 < 2 ^ k := Nat.two_pow_pos k
    have hpow : 2 ^ k < 2 ^ 63 := Nat.pow_lt_pow_right (by decide) (by omega)
    have hdouble : 2 ^ (k + 1) = 2 * 2 ^ k := pow_succ' 2 k
    rw [calculateLeafIndexFrom, if_neg (ne_zero_of_ones h), leafCount, ← h]
    simp only [UInt64.le_iff_toNat_le]
    split
    · next hle =>
      have hsub : (numLeft - peakSize).toNat = numLeft.toNat - peakSize.toNat :=
        UInt64.toNat_sub_of_le _ _ (UInt64.le_iff_toNat_le.2 hle)
      have hleaves : ((peakSize + 1) / 2).toNat = 2 ^ k := by
        rw [UInt64.toNat_div, UInt64.toNat_add, h]
        change (2 ^ (k + 1) - 1 + 1) % 2 ^ 64 / 2 = 2 ^ k
        omega
      rw [ih (by omega) (toNat_shiftRight_ones h), hsub, UInt64.toNat_add, hleaves]
      omega
    · exact ih (by omega) (toNat_shiftRight_ones h)

/-- **The count of the leaves**, with the one word for which it overflows. -/
theorem toNat_calculateLeafIndex (position : UInt64) :
    (calculateLeafIndex position).toNat =
      GrinPlusPlus.Index.calculateLeafIndex position.toNat % 2 ^ 63 := by
  have hbits := BitUtil.toNat_fillOnesToRight position
  have hlt := leafCount_lt (bitLength position.toNat) position.toNat
  rw [calculateLeafIndex, GrinPlusPlus.Index.calculateLeafIndex]
  rcases Nat.lt_or_ge (bitLength position.toNat) 64 with hle | hge
  · have hpow : 2 ^ bitLength position.toNat ≤ 2 ^ 63 :=
      Nat.pow_le_pow_right (by decide) (by omega)
    rw [toNat_calculateLeafIndexFrom (by omega) hbits, UInt64.toNat_zero]
    omega
  · -- the largest tree size: half of the next one is no word
    have hk : bitLength position.toNat = 63 + 1 :=
      Nat.le_antisymm (bitLength_le_of_lt position.toNat_lt) hge
    rw [hk] at hbits ⊢
    rw [calculateLeafIndexFrom, if_neg (ne_zero_of_ones hbits), leafCount, ← hbits]
    simp only [UInt64.le_iff_toNat_le]
    have hrest := leafCount_lt 63
    split
    · next hle =>
      have hsub : (position - BitUtil.fillOnesToRight position).toNat =
          position.toNat - (BitUtil.fillOnesToRight position).toNat :=
        UInt64.toNat_sub_of_le _ _ (UInt64.le_iff_toNat_le.2 hle)
      have hzero : (0 + (BitUtil.fillOnesToRight position + 1) / 2).toNat = 0 := by
        rw [UInt64.toNat_add, UInt64.toNat_div, UInt64.toNat_add, hbits]
        rfl
      have := hrest (position.toNat - (BitUtil.fillOnesToRight position).toNat)
      rw [toNat_calculateLeafIndexFrom le_rfl (toNat_shiftRight_ones hbits), hsub, hzero]
      omega
    · have := hrest position.toNat
      rw [toNat_calculateLeafIndexFrom le_rfl (toNat_shiftRight_ones hbits), UInt64.toNat_zero]
      omega

/-! ### Navigation -/

/-- The index in natural numbers. -/
def toNat (i : Index) : GrinPlusPlus.Index :=
  ⟨i.position.toNat, i.height.toNat⟩

theorem toNat_one_shiftLeft {height : UInt64} {h : ℕ} (hheight : height.toNat = h) (hlt : h < 64) :
    ((1 : UInt64) <<< height).toNat = 2 ^ h := by
  have hpow : 2 ^ h < 2 ^ 64 := Nat.pow_lt_pow_right (by decide) hlt
  rw [UInt64.toNat_shiftLeft, hheight, Nat.mod_eq_of_lt hlt, Nat.shiftLeft_eq, UInt64.toNat_one,
    Nat.one_mul, Nat.mod_eq_of_lt hpow]

/-- The size of a tree that is below a word. -/
theorem height_lt_of_nodePos_lt {h j : ℕ} (hlt : nodePos h j < 2 ^ 64) : h < 64 := by
  by_contra hge
  have hpow : 2 ^ (64 + 1) ≤ 2 ^ (h + 1) := Nat.pow_le_pow_right (by decide) (by omega)
  have := nodePos_eq_leafPos_add h j
  omega

/-- The index is the node of that address. -/
def IsNode (i : Index) (h j : ℕ) : Prop :=
  i.toNat = GrinPlusPlus.Index.node h j

theorem isNode_iff {i : Index} {h j : ℕ} :
    i.IsNode h j ↔ i.position.toNat = nodePos h j ∧ i.height.toNat = h :=
  ⟨GrinPlusPlus.Index.mk.inj, fun hi => congrArg₂ GrinPlusPlus.Index.mk hi.1 hi.2⟩

theorem IsNode.eq {i i' : Index} {h j : ℕ} (hi : i.IsNode h j) (hi' : i'.IsNode h j) : i = i' := by
  obtain ⟨hpos, hheight⟩ := isNode_iff.1 hi
  obtain ⟨hpos', hheight'⟩ := isNode_iff.1 hi'
  cases i
  cases i'
  congr
  · exact UInt64.toNat_inj.1 (hpos.trans hpos'.symm)
  · exact UInt64.toNat_inj.1 (hheight.trans hheight'.symm)

/-- Every word is the position of a node. -/
theorem exists_isNode (position : UInt64) :
    ∃ j, (ofPosition position).IsNode (PostOrder.height position.toNat) j := by
  obtain ⟨j, hj⟩ := exists_nodePos position.toNat
  exact ⟨j, isNode_iff.2 ⟨hj, toNat_calculateHeight position⟩⟩

/-- A node is the index at its position. -/
theorem IsNode.ofPosition_eq {i : Index} {h j : ℕ} (hi : i.IsNode h j) :
    ofPosition i.position = i := by
  obtain ⟨hpos, hheight⟩ := isNode_iff.1 hi
  have hsame : (ofPosition i.position).height = i.height := by
    refine UInt64.toNat_inj.1 ?_
    rw [ofPosition, toNat_calculateHeight, hpos, height_nodePos, hheight]
  exact congrArg (Index.mk i.position) hsame

variable {i : Index} {h j : ℕ}

/-- **Which child a node is** is read off the node behind it. -/
theorem IsNode.calculateHeight_succ (hi : i.IsNode h j)
    (hparent : nodePos (h + 1) (j / 2) < 2 ^ 64) :
    calculateHeight (i.position + 1) = i.height + 1 ↔ j % 2 = 1 := by
  obtain ⟨hpos, hheight⟩ := isNode_iff.1 hi
  have hbelow := nodePos_lt_parent h j
  have hh := height_lt_of_nodePos_lt hparent
  have hsucc : (i.position + 1).toNat = nodePos h j + 1 := by
    rw [UInt64.toNat_add, hpos, UInt64.toNat_one, Nat.mod_eq_of_lt (by omega)]
  have hnext : (i.height + 1).toNat = h + 1 := by
    rw [UInt64.toNat_add, hheight, UInt64.toNat_one, Nat.mod_eq_of_lt (by omega)]
  rw [← UInt64.toNat_inj, toNat_calculateHeight, hsucc, hnext]
  rcases Nat.even_or_odd' j with ⟨m, rfl | rfl⟩
  · rw [height_nodePos_succ_even]
    omega
  · rw [height_nodePos_succ_odd]
    omega

theorem IsNode.toNat_succ_height (hi : i.IsNode h j) (hh : h + 1 < 64) :
    (i.height + 1).toNat = h + 1 := by
  rw [UInt64.toNat_add, (isNode_iff.1 hi).2, UInt64.toNat_one, Nat.mod_eq_of_lt (by omega)]

/-- The parent is the block of two blocks. -/
theorem IsNode.getParent (hi : i.IsNode h j) (hparent : nodePos (h + 1) (j / 2) < 2 ^ 64) :
    i.getParent.IsNode (h + 1) (j / 2) := by
  obtain ⟨hpos, -⟩ := isNode_iff.1 hi
  have hh := height_lt_of_nodePos_lt hparent
  have hnext := hi.toNat_succ_height hh
  rw [isNode_iff, Index.getParent]
  simp only [hi.calculateHeight_succ hparent]
  rcases Nat.even_or_odd' j with ⟨m, rfl | rfl⟩
  · rw [show 2 * m / 2 = m by omega] at hparent ⊢
    have hleft := nodePos_left h m
    rw [if_neg (by omega)]
    refine ⟨?_, hnext⟩
    rw [UInt64.toNat_add, hpos, toNat_one_shiftLeft hnext hh, Nat.mod_eq_of_lt (by omega), hleft]
  · rw [show (2 * m + 1) / 2 = m by omega] at hparent ⊢
    have hright := nodePos_right h m
    rw [if_pos (by omega)]
    refine ⟨?_, hnext⟩
    rw [UInt64.toNat_add, hpos, UInt64.toNat_one, Nat.mod_eq_of_lt (by omega), hright]

/-- The sibling of a left child is the next block … -/
theorem IsNode.getSibling_left {m : ℕ} (hi : i.IsNode h (2 * m))
    (hparent : nodePos (h + 1) m < 2 ^ 64) : i.getSibling.IsNode h (2 * m + 1) := by
  obtain ⟨hpos, hheight⟩ := isNode_iff.1 hi
  have hh := height_lt_of_nodePos_lt hparent
  have hnext := hi.toNat_succ_height hh
  have hleft := nodePos_left h m
  have hright := nodePos_right h m
  have hpow : 0 < 2 ^ (h + 1) := Nat.two_pow_pos _
  have hodd := hi.calculateHeight_succ (by rwa [show 2 * m / 2 = m by omega])
  rw [isNode_iff, Index.getSibling]
  simp only [hodd]
  rw [if_neg (by omega)]
  refine ⟨?_, hheight⟩
  have hsum : (i.position + (1 : UInt64) <<< (i.height + 1)).toNat = nodePos (h + 1) m := by
    rw [UInt64.toNat_add, hpos, toNat_one_shiftLeft hnext hh, Nat.mod_eq_of_lt (by omega), hleft]
  rw [UInt64.toNat_sub_of_le _ _ (UInt64.le_iff_toNat_le.2 ?_), hsum, UInt64.toNat_one]
  · omega
  · rw [hsum, UInt64.toNat_one]
    omega

/-- … and that of a right child the one before. -/
theorem IsNode.getSibling_right {m : ℕ} (hi : i.IsNode h (2 * m + 1))
    (hparent : nodePos (h + 1) m < 2 ^ 64) : i.getSibling.IsNode h (2 * m) := by
  obtain ⟨hpos, hheight⟩ := isNode_iff.1 hi
  have hh := height_lt_of_nodePos_lt hparent
  have hnext := hi.toNat_succ_height hh
  have hleft := nodePos_left h m
  have hright := nodePos_right h m
  have hodd := hi.calculateHeight_succ (by rwa [show (2 * m + 1) / 2 = m by omega])
  rw [isNode_iff, Index.getSibling]
  simp only [hodd]
  rw [if_pos (by omega)]
  refine ⟨?_, hheight⟩
  have hsum : (i.position + 1).toNat = nodePos (h + 1) m := by
    rw [UInt64.toNat_add, hpos, UInt64.toNat_one, Nat.mod_eq_of_lt (by omega), hright]
  rw [UInt64.toNat_sub_of_le _ _ (UInt64.le_iff_toNat_le.2 ?_), hsum,
    toNat_one_shiftLeft hnext hh]
  · omega
  · rw [hsum, toNat_one_shiftLeft hnext hh]
    omega

theorem IsNode.getLeftChild (hi : i.IsNode (h + 1) j) : i.getLeftChild.IsNode h (2 * j) := by
  obtain ⟨hpos, hheight⟩ := isNode_iff.1 hi
  have hlt := i.position.toNat_lt
  have hh := height_lt_of_nodePos_lt (hpos ▸ hlt)
  have hleft := nodePos_left h j
  rw [isNode_iff, Index.getLeftChild]
  constructor
  · rw [UInt64.toNat_sub_of_le _ _ (UInt64.le_iff_toNat_le.2 ?_), hpos,
      toNat_one_shiftLeft hheight hh]
    · omega
    · rw [hpos, toNat_one_shiftLeft hheight hh]
      omega
  · rw [UInt64.toNat_sub_of_le _ _ (UInt64.le_iff_toNat_le.2 ?_), hheight, UInt64.toNat_one]
    · omega
    · rw [hheight, UInt64.toNat_one]
      omega

theorem IsNode.getRightChild (hi : i.IsNode (h + 1) j) : i.getRightChild.IsNode h (2 * j + 1) := by
  obtain ⟨hpos, hheight⟩ := isNode_iff.1 hi
  have hright := nodePos_right h j
  rw [isNode_iff, Index.getRightChild]
  constructor
  · rw [UInt64.toNat_sub_of_le _ _ (UInt64.le_iff_toNat_le.2 ?_), hpos, UInt64.toNat_one]
    · omega
    · rw [hpos, UInt64.toNat_one]
      omega
  · rw [UInt64.toNat_sub_of_le _ _ (UInt64.le_iff_toNat_le.2 ?_), hheight, UInt64.toNat_one]
    · omega
    · rw [hheight, UInt64.toNat_one]
      omega

/-- The sibling is the other block of the parent, and its sibling is the node again. -/
theorem IsNode.exists_getSibling (hi : i.IsNode h j)
    (hparent : nodePos (h + 1) (j / 2) < 2 ^ 64) :
    ∃ j', i.getSibling.IsNode h j' ∧ i.getSibling.getSibling.IsNode h j ∧ j' / 2 = j / 2 ∧
      j' % 2 = 1 - j % 2 := by
  rcases Nat.even_or_odd' j with ⟨m, rfl | rfl⟩
  · rw [show 2 * m / 2 = m by omega] at hparent
    have hs := hi.getSibling_left hparent
    exact ⟨2 * m + 1, hs, hs.getSibling_right hparent, by omega, by omega⟩
  · rw [show (2 * m + 1) / 2 = m by omega] at hparent
    have hs := hi.getSibling_right hparent
    exact ⟨2 * m, hs, hs.getSibling_left hparent, by omega, by omega⟩

/-- **Room to go up**: the parent of a node below `2 ^ 63` is a word. -/
theorem parent_lt_of_lt (hlt : nodePos h j < 2 ^ 63) : nodePos (h + 1) (j / 2) < 2 ^ 64 := by
  have hroom := two_pow_height_le (nodePos h j)
  rw [height_nodePos] at hroom
  have hh : h + 1 < 64 := by
    by_contra hge
    have := Nat.pow_le_pow_right (n := 2) (by decide) (show 64 ≤ h + 1 by omega)
    omega
  have hpow : 2 ^ (h + 1) ≤ 2 ^ 63 := Nat.pow_le_pow_right (by decide) (by omega)
  rcases Nat.even_or_odd' j with ⟨m, rfl | rfl⟩
  · rw [show 2 * m / 2 = m by omega]
    have := nodePos_left h m
    omega
  · rw [show (2 * m + 1) / 2 = m by omega]
    have := nodePos_right h m
    omega

end Index

namespace MMRUtil

/-- `MMRUtil::IsLeftSibling`. -/
def isLeftSibling (position : UInt64) : Bool :=
  let index := Index.ofPosition position
  let parent := index.getParent
  parent.getLeftChild == index

end MMRUtil

theorem Index.IsNode.isLeftSibling {i : Index} {h j : ℕ} (hi : i.IsNode h j)
    (hparent : nodePos (h + 1) (j / 2) < 2 ^ 64) :
    MMRUtil.isLeftSibling i.position = decide (j % 2 = 0) := by
  have hchild := (hi.getParent hparent).getLeftChild
  rw [MMRUtil.isLeftSibling, hi.ofPosition_eq, Bool.eq_iff_iff, beq_iff_eq, decide_eq_true_eq]
  constructor
  · intro heq
    rw [heq] at hchild
    have := nodePos_inj ((isNode_iff.1 hchild).1.symm.trans (isNode_iff.1 hi).1)
    omega
  · intro heven
    rw [show 2 * (j / 2) = j by omega] at hchild
    exact hchild.eq hi

/-! ### Leaf indices -/

/-- `LeafIndex`: the number of a leaf, with its node. -/
structure LeafIndex where
  /-- `m_leafIndex`. -/
  leafIndex : UInt64
  /-- `m_nodeIndex`. -/
  nodeIndex : Index
deriving DecidableEq

namespace LeafIndex

/-- `LeafIndex::At`. -/
def ofLeafIndex (leafIndex : UInt64) : LeafIndex :=
  ⟨leafIndex, ⟨2 * leafIndex - (BitUtil.countBitsSet leafIndex).toUInt64, 0⟩⟩

/-- `LeafIndex::From`. -/
def ofIndex (index : Index) : LeafIndex :=
  ⟨index.getLeafIndex, ⟨index.position, 0⟩⟩

/-- `LeafIndex::AtPos`. -/
def atPos (position : UInt64) : LeafIndex :=
  ofIndex (Index.ofPosition position)

/-- `LeafIndex::GetPosition`. -/
def getPosition (l : LeafIndex) : UInt64 :=
  l.nodeIndex.position

/-- **The position of a leaf**, up to the first number whose double is no word: there the
product wraps around to zero and the difference back. -/
theorem toNat_getPosition {leafIndex : UInt64} (h : leafIndex.toNat ≤ 2 ^ 63) :
    (ofLeafIndex leafIndex).getPosition.toNat = leafPos leafIndex.toNat := by
  have hones := ones_le leafIndex.toNat
  have hword := leafIndex.toNat_lt
  have hcount : (BitUtil.countBitsSet leafIndex).toUInt64.toNat = ones leafIndex.toNat := by
    rw [UInt8.toNat_toUInt64, BitUtil.toNat_countBitsSet]
  have hlast : leafIndex.toNat = 2 ^ 63 → ones leafIndex.toNat = 1 := by
    intro heq
    rw [heq, ← Nat.mul_one (2 ^ 63), ones_two_pow_mul]
    rfl
  rw [getPosition, ofLeafIndex, UInt64.toNat_sub, UInt64.toNat_mul, hcount, leafPos]
  change (2 ^ 64 - ones leafIndex.toNat + 2 * leafIndex.toNat % 2 ^ 64) % 2 ^ 64 = _
  omega

/-- A leaf is counted by the leaves in front of it. -/
theorem toNat_getLeafIndex {position : UInt64} {j : ℕ} (hpos : position.toNat = leafPos j)
    (hj : j < 2 ^ 63) : (Index.ofPosition position).getLeafIndex.toNat = j := by
  rw [Index.getLeafIndex, Index.ofPosition, Index.toNat_calculateLeafIndex, hpos,
    calculateLeafIndex_leafPos, Nat.mod_eq_of_lt hj]

end LeafIndex

/-- The leaves below `2 ^ 63` are the first `2 ^ 62 + 1`. -/
theorem leafPos_lt_two_pow_63_iff {n : ℕ} : leafPos n < 2 ^ 63 ↔ n ≤ 2 ^ 62 := by
  have hlast : leafPos (2 ^ 62) = 2 ^ 63 - 1 := leafPos_two_pow 62
  rw [← leafPos_strictMono.le_iff_le, hlast]
  omega

/-- Height zero is a leaf. -/
theorem exists_leafPos_of_height {position : UInt64}
    (h : (Index.ofPosition position).height = 0) : ∃ j, position.toNat = leafPos j := by
  obtain ⟨j, hj⟩ := Index.exists_isNode position
  obtain ⟨hpos, hheight⟩ := Index.isNode_iff.1 hj
  rw [h, UInt64.toNat_zero] at hheight
  rw [← hheight, nodePos_zero] at hpos
  exact ⟨j, hpos⟩

theorem height_eq_zero_of_leafPos {position : UInt64} {j : ℕ} (h : position.toNat = leafPos j) :
    (Index.ofPosition position).height = 0 := by
  refine UInt64.toNat_inj.1 ?_
  rw [Index.ofPosition, Index.toNat_calculateHeight, h, height_leafPos, UInt64.toNat_zero]

/-! ### The algebra of the indices -/

/-- The navigation from an index fits the mountain range. -/
structure Index.Navigable (i : Index) : Prop where
  /-- The height is the one of the post-order numbering. -/
  height_eq : i.height.toNat = PostOrder.height i.position.toNat
  /-- The parent is the index at its position, one level up. -/
  parent_at : i.getParent = ofPosition i.getParent.position
  parent_height : i.getParent.height = i.height + 1
  /-- The node is a child of its parent. -/
  parent_child : i.getParent.getLeftChild = i ∨ i.getParent.getRightChild = i
  /-- The children are the indices at their positions. -/
  left_at : i.height ≠ 0 → i.getLeftChild = ofPosition i.getLeftChild.position
  right_at : i.height ≠ 0 → i.getRightChild = ofPosition i.getRightChild.position
  /-- The parent of either child is the node. -/
  left_parent : i.height ≠ 0 → i.getLeftChild.getParent = i
  right_parent : i.height ≠ 0 → i.getRightChild.getParent = i
  /-- The sibling is the index at its position, on the same level. -/
  sibling_at : i.getSibling = ofPosition i.getSibling.position
  sibling_height : i.getSibling.height = i.height
  /-- The sibling of the sibling is the node, which is not its own sibling. -/
  sibling_sibling : i.getSibling.getSibling = i
  sibling_ne : i.getSibling ≠ i
  /-- One of the two is the left one. -/
  sibling_left : MMRUtil.isLeftSibling i.getSibling.position = !MMRUtil.isLeftSibling i.position

/-- The children of a node that is no leaf. -/
theorem Index.IsNode.children {i : Index} {h j : ℕ} (hi : i.IsNode h j) (hne : i.height ≠ 0) :
    ∃ k, h = k + 1 ∧ i.getLeftChild.IsNode k (2 * j) ∧ i.getRightChild.IsNode k (2 * j + 1) ∧
      i.getLeftChild.getParent.IsNode h j ∧ i.getRightChild.getParent.IsNode h j := by
  obtain ⟨hpos, hheight⟩ := isNode_iff.1 hi
  have hpositive : h ≠ 0 := by
    rintro rfl
    exact hne (UInt64.toNat_inj.1 hheight)
  obtain ⟨k, rfl⟩ := Nat.exists_eq_succ_of_ne_zero hpositive
  have hlt : nodePos (k + 1) j < 2 ^ 64 := hpos ▸ i.position.toNat_lt
  have hleft := hi.getLeftChild.getParent (by rwa [show 2 * j / 2 = j by omega])
  have hright := hi.getRightChild.getParent (by rwa [show (2 * j + 1) / 2 = j by omega])
  rw [show 2 * j / 2 = j by omega] at hleft
  rw [show (2 * j + 1) / 2 = j by omega] at hright
  exact ⟨k, rfl, hi.getLeftChild, hi.getRightChild, hleft, hright⟩

/-- **Navigation**: it fits at every node whose parent is a word. -/
theorem Index.IsNode.navigable {i : Index} {h j : ℕ} (hi : i.IsNode h j)
    (hparent : nodePos (h + 1) (j / 2) < 2 ^ 64) : i.Navigable := by
  have hup := hi.getParent hparent
  obtain ⟨j', hsibling, hback, hblock, hside⟩ := hi.exists_getSibling hparent
  have hsiblingparent : nodePos (h + 1) (j' / 2) < 2 ^ 64 := by rwa [hblock]
  constructor
  case height_eq =>
    rw [(isNode_iff.1 hi).1, (isNode_iff.1 hi).2, height_nodePos]
  case parent_at => exact hup.ofPosition_eq.symm
  case parent_height =>
    refine UInt64.toNat_inj.1 ?_
    rw [(isNode_iff.1 hup).2, hi.toNat_succ_height (height_lt_of_nodePos_lt hparent)]
  case parent_child =>
    rcases Nat.mod_two_eq_zero_or_one j with heven | hodd
    · have hleft := hup.getLeftChild
      rw [show 2 * (j / 2) = j by omega] at hleft
      exact .inl (hleft.eq hi)
    · have hright := hup.getRightChild
      rw [show 2 * (j / 2) + 1 = j by omega] at hright
      exact .inr (hright.eq hi)
  case left_at =>
    intro hne
    obtain ⟨k, -, hleft, -⟩ := hi.children hne
    exact hleft.ofPosition_eq.symm
  case right_at =>
    intro hne
    obtain ⟨k, -, -, hright, -⟩ := hi.children hne
    exact hright.ofPosition_eq.symm
  case left_parent =>
    intro hne
    obtain ⟨k, -, -, -, hleft, -⟩ := hi.children hne
    exact hleft.eq hi
  case right_parent =>
    intro hne
    obtain ⟨k, -, -, -, -, hright⟩ := hi.children hne
    exact hright.eq hi
  case sibling_at => exact hsibling.ofPosition_eq.symm
  case sibling_height =>
    exact UInt64.toNat_inj.1 ((isNode_iff.1 hsibling).2.trans (isNode_iff.1 hi).2.symm)
  case sibling_sibling => exact hback.eq hi
  case sibling_ne =>
    intro heq
    rw [heq] at hsibling
    have := nodePos_inj ((isNode_iff.1 hsibling).1.symm.trans (isNode_iff.1 hi).1)
    omega
  case sibling_left =>
    rw [hsibling.isLeftSibling hsiblingparent, hi.isLeftSibling hparent, hside]
    rcases Nat.mod_two_eq_zero_or_one j with h0 | h1
    · simp [h0]
    · simp [h1]

/-- The numbers of the leaves below `2 ^ 63` … -/
def leafNumbers : Set UInt64 :=
  {leafIndex | leafIndex.toNat ≤ 2 ^ 62}

/-- … and their positions. -/
def leafPositions : Set UInt64 :=
  {position | position.toNat < 2 ^ 63 ∧ (Index.ofPosition position).height = 0}

theorem leafNumbers_getPosition {leafIndex : UInt64} (h : leafIndex ∈ leafNumbers) :
    (LeafIndex.ofLeafIndex leafIndex).getPosition.toNat = leafPos leafIndex.toNat :=
  LeafIndex.toNat_getPosition (Nat.le_trans h (by decide))

theorem leafPositions_getLeafIndex {position : UInt64} (h : position ∈ leafPositions) :
    position.toNat = leafPos (Index.ofPosition position).getLeafIndex.toNat ∧
      (Index.ofPosition position).getLeafIndex ∈ leafNumbers := by
  obtain ⟨hlt, hheight⟩ := h
  obtain ⟨j, hj⟩ := exists_leafPos_of_height hheight
  have hle : j ≤ 2 ^ 62 := leafPos_lt_two_pow_63_iff.1 (hj ▸ hlt)
  have hleaf := LeafIndex.toNat_getLeafIndex hj (Nat.lt_of_le_of_lt hle (by decide))
  have hnumber : (Index.ofPosition position).getLeafIndex.toNat ≤ 2 ^ 62 := hleaf.symm ▸ hle
  exact ⟨hleaf.symm ▸ hj, hnumber⟩

/-- **The algebra of the indices**: every index below `2 ^ 63` fits the mountain range, and
`LeafIndex::At` and `Index::GetLeafIndex` number its leaves in both directions. -/
theorem index_algebra :
    (∀ p : UInt64, p.toNat < 2 ^ 63 → (Index.ofPosition p).Navigable) ∧
    Set.BijOn (fun n => (LeafIndex.ofLeafIndex n).getPosition) leafNumbers leafPositions ∧
    Set.InvOn (fun p => (Index.ofPosition p).getLeafIndex)
      (fun n => (LeafIndex.ofLeafIndex n).getPosition) leafNumbers leafPositions ∧
    (∀ m ∈ leafNumbers, ∀ n ∈ leafNumbers, m < n →
      (LeafIndex.ofLeafIndex m).getPosition < (LeafIndex.ofLeafIndex n).getPosition) ∧
    (∀ p ∈ leafPositions, ∀ q ∈ leafPositions, p < q →
      (Index.ofPosition p).getLeafIndex < (Index.ofPosition q).getLeafIndex) := by
  have hposition : Set.MapsTo (fun n => (LeafIndex.ofLeafIndex n).getPosition) leafNumbers
      leafPositions := by
    intro n hn
    have hpos := leafNumbers_getPosition hn
    exact ⟨hpos ▸ leafPos_lt_two_pow_63_iff.2 hn, height_eq_zero_of_leafPos hpos⟩
  have hnumber : Set.MapsTo (fun p => (Index.ofPosition p).getLeafIndex) leafPositions
      leafNumbers := fun p hp => (leafPositions_getLeafIndex hp).2
  have hinv : Set.InvOn (fun p => (Index.ofPosition p).getLeafIndex)
      (fun n => (LeafIndex.ofLeafIndex n).getPosition) leafNumbers leafPositions := by
    constructor
    · intro n hn
      exact UInt64.toNat_inj.1 (LeafIndex.toNat_getLeafIndex (leafNumbers_getPosition hn)
        (Nat.lt_of_le_of_lt hn (by decide)))
    · intro p hp
      obtain ⟨hpos, hn⟩ := leafPositions_getLeafIndex hp
      exact UInt64.toNat_inj.1 ((leafNumbers_getPosition hn).trans hpos.symm)
  refine ⟨fun p hp => ?_, hinv.bijOn hposition hnumber, hinv, fun m hm n hn hlt => ?_,
    fun p hp q hq hlt => ?_⟩
  · obtain ⟨j, hj⟩ := Index.exists_isNode p
    have hpos : p.toNat = nodePos _ j := (Index.isNode_iff.1 hj).1
    exact hj.navigable (Index.parent_lt_of_lt (hpos ▸ hp))
  · rw [UInt64.lt_iff_toNat_lt, leafNumbers_getPosition hm, leafNumbers_getPosition hn]
    exact leafPos_strictMono (UInt64.lt_iff_toNat_lt.1 hlt)
  · rw [UInt64.lt_iff_toNat_lt] at hlt ⊢
    rw [(leafPositions_getLeafIndex hp).1, (leafPositions_getLeafIndex hq).1] at hlt
    exact leafPos_strictMono.lt_iff_lt.1 hlt

end GrinPlusPlus.Word
