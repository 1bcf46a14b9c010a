import GrinPlusPlus.Pmmr.IndexWords

/-!
# Peaks and segments as machine words

`MMRUtil::GetPeakIndices`, `MMRUtil::CountLeaves` and the arithmetic of `SegmentIdentifier`, on
64-bit words.

* `GrinPlusPlus.Word.peak_decomposition` – a size has peaks exactly when it is the size over
  some leaves; a greedy loop that takes each tree size at most once sees this in the rest;
* `GrinPlusPlus.Word.SegmentIdentifier.tiles_iff` – the segments of a size tile its leaves, but
  for the largest word. That word is the size over `2 ^ 63` leaves, and the number of its
  leaves is counted as zero, since half of `peakSize + 1` is taken after the sum has wrapped
  around.

The subtree under a position is `PostOrder.Below`, the recursion down to the leaves; that it is
an interval of positions is what makes the ranges of the segments work.
-/

namespace GrinPlusPlus.Word

open PostOrder

namespace MMRUtil

/-- The loop of `MMRUtil::GetPeakIndices`, with the test behind it. -/
def getPeakIndicesFrom (peakIndices : List UInt64) (numLeft sumPrevPeaks peakSize : UInt64) :
    List UInt64 :=
  if peakSize = 0 then if 0 < numLeft then [] else peakIndices
  else if peakSize ≤ numLeft then
    getPeakIndicesFrom (peakIndices ++ [sumPrevPeaks + peakSize - 1]) (numLeft - peakSize)
      (sumPrevPeaks + peakSize) (peakSize >>> 1)
  else getPeakIndicesFrom peakIndices numLeft sumPrevPeaks (peakSize >>> 1)
termination_by peakSize.toNat
decreasing_by all_goals exact toNat_shiftRight_one_lt (by assumption)

/-- `MMRUtil::GetPeakIndices`. -/
def getPeakIndices (size : UInt64) : List UInt64 :=
  if 0 < size then getPeakIndicesFrom [] size 0 (BitUtil.fillOnesToRight size) else []

/-- `MMRUtil::CountLeaves`. -/
def countLeaves (size : UInt64) : UInt64 :=
  if size = 0 then 0 else (LeafIndex.atPos size).leafIndex

theorem toNat_getPeakIndicesFrom {k : ℕ} {peakIndices : List UInt64}
    {numLeft sumPrevPeaks peakSize : UInt64} (h : peakSize.toNat = 2 ^ k - 1)
    (hsum : sumPrevPeaks.toNat + numLeft.toNat < 2 ^ 64) :
    (getPeakIndicesFrom peakIndices numLeft sumPrevPeaks peakSize).map UInt64.toNat =
      if PostOrder.sub k numLeft.toNat = 0 then
        peakIndices.map UInt64.toNat ++ peaksFrom k sumPrevPeaks.toNat numLeft.toNat
      else [] := by
  induction k generalizing peakIndices numLeft sumPrevPeaks peakSize with
  | zero =>
    rw [getPeakIndicesFrom, if_pos (UInt64.toNat_inj.1 h), sub, peaksFrom, List.append_nil]
    simp only [UInt64.lt_iff_toNat_lt, UInt64.toNat_zero]
    by_cases hleft : numLeft.toNat = 0
    · rw [if_neg (by omega), if_pos hleft]
    · rw [if_pos (by omega), if_neg hleft, List.map_nil]
  | succ k ih =>
    have hpos : 0 < 2 ^ k := Nat.two_pow_pos k
    have hdouble : 2 ^ (k + 1) = 2 * 2 ^ k := pow_succ' 2 k
    rw [getPeakIndicesFrom, if_neg (ne_zero_of_ones h), sub, peaksFrom, ← h]
    simp only [UInt64.le_iff_toNat_le]
    split
    · next hle =>
      have hsub : (numLeft - peakSize).toNat = numLeft.toNat - peakSize.toNat :=
        UInt64.toNat_sub_of_le _ _ (UInt64.le_iff_toNat_le.2 hle)
      have hadd : (sumPrevPeaks + peakSize).toNat = sumPrevPeaks.toNat + peakSize.toNat := by
        rw [UInt64.toNat_add, Nat.mod_eq_of_lt (by omega)]
      have hpeak : (sumPrevPeaks + peakSize - 1).toNat =
          sumPrevPeaks.toNat + peakSize.toNat - 1 := by
        rw [UInt64.toNat_sub_of_le _ _ (UInt64.le_iff_toNat_le.2 ?_), hadd, UInt64.toNat_one]
        rw [hadd, UInt64.toNat_one]
        omega
      rw [ih (toNat_shiftRight_ones h) (by omega), hsub, hadd, List.map_append, List.map_singleton,
        hpeak, List.append_assoc, List.singleton_append]
    · exact ih (toNat_shiftRight_ones h) hsum

/-- **The peaks of a word** are those of the size. -/
theorem toNat_getPeakIndices (size : UInt64) :
    (getPeakIndices size).map UInt64.toNat = GrinPlusPlus.getPeakIndices size.toNat := by
  rw [getPeakIndices, GrinPlusPlus.getPeakIndices]
  by_cases hsize : 0 < size
  · rw [if_pos hsize, toNat_getPeakIndicesFrom (BitUtil.toNat_fillOnesToRight size),
      UInt64.toNat_zero]
    · rfl
    · have := size.toNat_lt
      rw [UInt64.toNat_zero]
      omega
  · have hzero : size.toNat = 0 := by
      rw [UInt64.lt_iff_toNat_lt, UInt64.toNat_zero] at hsize
      omega
    rw [if_neg hsize, hzero]
    rfl

theorem toNat_countLeaves (size : UInt64) :
    (countLeaves size).toNat = GrinPlusPlus.MMRUtil.countLeaves size.toNat := by
  have hzero : size = 0 ↔ size.toNat = 0 := by
    rw [← UInt64.toNat_inj, UInt64.toNat_zero]
  rw [countLeaves, GrinPlusPlus.MMRUtil.countLeaves]
  simp only [hzero]
  split
  · rfl
  · exact Index.toNat_calculateLeafIndex size

end MMRUtil

/-! ### Peaks -/

/-- A peak of a word, seen as a peak of the size. -/
theorem mem_getPeakIndices {size q : UInt64} :
    q ∈ MMRUtil.getPeakIndices size ↔ q.toNat ∈ GrinPlusPlus.getPeakIndices size.toNat := by
  rw [← MMRUtil.toNat_getPeakIndices, List.mem_map]
  constructor
  · exact fun h => ⟨q, h, rfl⟩
  · rintro ⟨q', h, heq⟩
    exact UInt64.toNat_inj.1 heq ▸ h

/-- A number of the list is a word. -/
theorem exists_mem_getPeakIndices {size : UInt64} {q : ℕ}
    (h : q ∈ GrinPlusPlus.getPeakIndices size.toNat) :
    ∃ q' ∈ MMRUtil.getPeakIndices size, q'.toNat = q := by
  rw [← MMRUtil.toNat_getPeakIndices] at h
  exact List.mem_map.1 h

/-- **The sizes with peaks** are the sizes over some leaves. -/
theorem getPeakIndices_ne_nil_iff (size : ℕ) :
    GrinPlusPlus.getPeakIndices size ≠ [] ↔ ∃ n ≥ 1, size = leafPos n := by
  constructor
  · intro hne
    by_contra hall
    refine hne ?_
    by_cases hsize : size = leafPos (GrinPlusPlus.Index.calculateLeafIndex size)
    · have hzero : GrinPlusPlus.Index.calculateLeafIndex size = 0 := by
        by_contra hpositive
        exact hall ⟨_, Nat.pos_of_ne_zero hpositive, hsize⟩
      rw [hzero] at hsize
      rw [hsize]
      rfl
    · exact getPeakIndices_of_ne hsize
  · rintro ⟨n, hn, rfl⟩
    obtain ⟨q, hq, -⟩ := exists_peak (lt_two_pow_bitLength_leafPos n) (r := 0)
      (Nat.lt_of_lt_of_le hn (le_leafPos n))
    rw [getPeakIndices_leafPos]
    exact List.ne_nil_of_mem hq

/-- The subtrees of the peaks cover the positions of the range … -/
theorem lt_leafPos_iff_below (n r : ℕ) :
    r < leafPos n ↔ ∃ q ∈ GrinPlusPlus.getPeakIndices (leafPos n), Below r q := by
  rw [getPeakIndices_leafPos]
  constructor
  · intro hr
    obtain ⟨q, hq, -, hunder⟩ := exists_peak (lt_two_pow_bitLength_leafPos n) hr
    exact ⟨q, hq, below_iff_under.2 hunder⟩
  · rintro ⟨q, hq, hbelow⟩
    have hle := (below_iff_under.1 hbelow).2
    have hlt := (peaksFrom_bounds hq).2
    omega

/-- … and do not overlap. -/
theorem eq_of_below_peaks {n q q' r : ℕ} (hq : q ∈ GrinPlusPlus.getPeakIndices (leafPos n))
    (hq' : q' ∈ GrinPlusPlus.getPeakIndices (leafPos n)) (h : Below r q) (h' : Below r q') :
    q = q' := by
  rw [getPeakIndices_leafPos] at hq hq'
  exact eq_of_under_peaks (lt_two_pow_bitLength_leafPos n) hq hq' (below_iff_under.1 h)
    (below_iff_under.1 h')

/-- **The heights of the peaks** are the digits of the number of leaves. -/
theorem map_height_getPeakIndices {n k : ℕ} (hk : leafPos n < 2 ^ k) :
    (GrinPlusPlus.getPeakIndices (leafPos n)).map PostOrder.height =
      (List.range k).reverse.filter fun h => n.testBit h := by
  have hn := lt_two_pow_bitLength_leafPos n
  rw [getPeakIndices_leafPos, peaksFrom_eq hn, List.map_map, ← map_fst_peaks,
    peaks_eq_of_le (bitLength_le_of_lt hk) hn]
  exact List.map_congr_left fun q _ => height_nodePos q.1 q.2

/-- **The decomposition into peaks**: a size below `2 ^ 63` has peaks when it is the size over
some leaves; the subtrees of the peaks then partition the positions, and their heights are the
digits of the number of leaves. -/
theorem peak_decomposition {s : UInt64} (hs : s.toNat < 2 ^ 63) :
    (MMRUtil.getPeakIndices s ≠ [] ↔ ∃ n ≥ 1, s.toNat = 2 * n - ones n) ∧
    ∀ n ≥ 1, s.toNat = 2 * n - ones n →
      (MMRUtil.getPeakIndices s).Pairwise (· < ·) ∧
      (∀ r, r < s.toNat ↔ ∃ q ∈ MMRUtil.getPeakIndices s, Below r q.toNat) ∧
      (∀ q ∈ MMRUtil.getPeakIndices s, ∀ q' ∈ MMRUtil.getPeakIndices s, ∀ r,
        Below r q.toNat → Below r q'.toNat → q = q') ∧
      (MMRUtil.getPeakIndices s).map (fun q => (Index.ofPosition q).height.toNat) =
        (List.range 64).reverse.filter (fun h => n.testBit h) ∧
      (MMRUtil.countLeaves s).toNat = n := by
  refine ⟨?_, fun n _ hn => ⟨?_, fun r => ?_, fun q hq q' hq' r h h' => ?_, ?_, ?_⟩⟩
  · have hempty : MMRUtil.getPeakIndices s = [] ↔ GrinPlusPlus.getPeakIndices s.toNat = [] := by
      rw [← MMRUtil.toNat_getPeakIndices, List.map_eq_nil_iff]
    rw [ne_eq, hempty]
    exact getPeakIndices_ne_nil_iff s.toNat
  all_goals have hsize : s.toNat = leafPos n := hn
  · have hpairwise : ((MMRUtil.getPeakIndices s).map UInt64.toNat).Pairwise (· < ·) := by
      rw [MMRUtil.toNat_getPeakIndices, hsize, getPeakIndices_leafPos]
      exact peaksFrom_pairwise _ _ _
    exact (List.pairwise_map.1 hpairwise).imp fun h => UInt64.lt_iff_toNat_lt.2 h
  · rw [hsize, lt_leafPos_iff_below]
    constructor
    · rintro ⟨q, hq, hbelow⟩
      obtain ⟨q', hq', rfl⟩ := exists_mem_getPeakIndices (hsize ▸ hq)
      exact ⟨q', hq', hbelow⟩
    · rintro ⟨q, hq, hbelow⟩
      exact ⟨q.toNat, hsize ▸ mem_getPeakIndices.1 hq, hbelow⟩
  · rw [mem_getPeakIndices, hsize] at hq hq'
    exact UInt64.toNat_inj.1 (eq_of_below_peaks hq hq' h h')
  · rw [← map_height_getPeakIndices (hsize ▸ s.toNat_lt), ← hsize, ← MMRUtil.toNat_getPeakIndices,
      List.map_map]
    exact List.map_congr_left fun q _ => Index.toNat_calculateHeight q
  · have hlt : n < 2 ^ 63 := Nat.lt_of_le_of_lt (le_leafPos n) (hsize ▸ hs)
    rw [MMRUtil.toNat_countLeaves, hsize, GrinPlusPlus.MMRUtil.countLeaves_leafPos hlt]

/-- Four leaves under one peak. -/
theorem peak_decomposition_seven :
    (MMRUtil.getPeakIndices 7 ≠ [] ↔ ∃ n ≥ 1, (7 : UInt64).toNat = 2 * n - ones n) ∧
    (MMRUtil.countLeaves 7).toNat = 4 := by
  obtain ⟨hne, hpeaks⟩ := peak_decomposition (s := 7) (by decide)
  obtain ⟨-, -, -, -, hcount⟩ := hpeaks 4 (by decide) (by decide)
  exact ⟨hne, hcount⟩

/-! ### Segments -/

namespace SegmentIdentifier

/-- `SegmentIdentifier::GetSegmentCapacity`. -/
def getSegmentCapacity (id : SegmentIdentifier) : UInt64 :=
  1 <<< id.height.toUInt64

/-- `SegmentIdentifier::GetLeafOffset`. -/
def getLeafOffset (id : SegmentIdentifier) : UInt64 :=
  id.index * getSegmentCapacity id

/-- `SegmentIdentifier::GetSegmentUnprunedSize`. -/
def getSegmentUnprunedSize (id : SegmentIdentifier) (mmrSize : UInt64) : UInt64 :=
  let numLeaves := MMRUtil.countLeaves mmrSize
  let leafOffset := getLeafOffset id
  if numLeaves ≤ leafOffset then 0 else min (getSegmentCapacity id) (numLeaves - leafOffset)

/-- `SegmentIdentifier::GetPositionRange`. -/
def getPositionRange (id : SegmentIdentifier) (mmrSize : UInt64) : UInt64 × UInt64 :=
  let segmentSize := getSegmentUnprunedSize id mmrSize
  if segmentSize = 0 then (0, 0)
  else
    let first := (LeafIndex.ofLeafIndex (getLeafOffset id)).getPosition
    if segmentSize = getSegmentCapacity id then
      let lastLeafPos := (LeafIndex.ofLeafIndex (getLeafOffset id + segmentSize - 1)).getPosition
      (first, lastLeafPos + id.height.toUInt64)
    else (first, mmrSize - 1)

/-- `SegmentIdentifier::CountSegmentsRequired`. -/
def countSegmentsRequired (targetMMRSize : UInt64) (height : UInt8) : UInt64 :=
  let numLeaves := MMRUtil.countLeaves targetMMRSize
  let segmentCapacity := 1 <<< height.toUInt64
  (numLeaves + segmentCapacity - 1) / segmentCapacity

variable {mmrSize : UInt64} {height : UInt8} {i : UInt64} {n : ℕ}

theorem toNat_getSegmentCapacity (hh : height.toNat < 63) :
    (getSegmentCapacity ⟨height, i⟩).toNat = 2 ^ height.toNat :=
  Index.toNat_one_shiftLeft (UInt8.toNat_toUInt64 height) (by omega)

/-- The number of segments is the number of blocks, the last one rounded up. -/
theorem lt_countSegmentsRequired_iff (hsize : mmrSize.toNat = leafPos n) (hn : n < 2 ^ 63)
    (hh : height.toNat < 63) :
    i < countSegmentsRequired mmrSize height ↔ i.toNat * 2 ^ height.toNat < n := by
  have hcapacity := toNat_getSegmentCapacity (i := 0) hh
  have hpos : 0 < 2 ^ height.toNat := Nat.two_pow_pos _
  have hpow : 2 ^ height.toNat ≤ 2 ^ 62 := Nat.pow_le_pow_right (by decide) (by omega)
  have hleaves : (MMRUtil.countLeaves mmrSize).toNat = n := by
    rw [MMRUtil.toNat_countLeaves, hsize, GrinPlusPlus.MMRUtil.countLeaves_leafPos hn]
  have hadd : (MMRUtil.countLeaves mmrSize + getSegmentCapacity ⟨height, 0⟩).toNat =
      n + 2 ^ height.toNat := by
    rw [UInt64.toNat_add, hleaves, hcapacity, Nat.mod_eq_of_lt (by omega)]
  have hcount : (countSegmentsRequired mmrSize height).toNat =
      (n + 2 ^ height.toNat - 1) / 2 ^ height.toNat := by
    change ((MMRUtil.countLeaves mmrSize + getSegmentCapacity ⟨height, 0⟩ - 1) /
      getSegmentCapacity ⟨height, 0⟩).toNat = _
    rw [UInt64.toNat_div, UInt64.toNat_sub_of_le _ _ (UInt64.le_iff_toNat_le.2 ?_), hadd,
      hcapacity, UInt64.toNat_one]
    rw [hadd, UInt64.toNat_one]
    omega
  rw [UInt64.lt_iff_toNat_lt, hcount, ← Nat.add_one_le_iff, Nat.le_div_iff_mul_le hpos,
    Nat.succ_mul]
  omega

theorem toNat_getLeafOffset (hh : height.toNat < 63)
    (hlt : i.toNat * 2 ^ height.toNat < 2 ^ 63) :
    (getLeafOffset ⟨height, i⟩).toNat = i.toNat * 2 ^ height.toNat := by
  rw [getLeafOffset, UInt64.toNat_mul, toNat_getSegmentCapacity hh]
  exact Nat.mod_eq_of_lt (by dsimp only; omega)

theorem toNat_getSegmentUnprunedSize (hsize : mmrSize.toNat = leafPos n) (hn : n < 2 ^ 63)
    (hh : height.toNat < 63) (hlt : i.toNat * 2 ^ height.toNat < n) :
    (getSegmentUnprunedSize ⟨height, i⟩ mmrSize).toNat =
      min (2 ^ height.toNat) (n - i.toNat * 2 ^ height.toNat) := by
  have hoffset := toNat_getLeafOffset hh (Nat.lt_trans hlt hn)
  have hleaves : (MMRUtil.countLeaves mmrSize).toNat = n := by
    rw [MMRUtil.toNat_countLeaves, hsize, GrinPlusPlus.MMRUtil.countLeaves_leafPos hn]
  have hrest : (MMRUtil.countLeaves mmrSize - getLeafOffset ⟨height, i⟩).toNat =
      n - i.toNat * 2 ^ height.toNat := by
    rw [UInt64.toNat_sub_of_le _ _ (UInt64.le_iff_toNat_le.2 ?_), hleaves, hoffset]
    rw [hleaves, hoffset]
    omega
  have hmore : ¬MMRUtil.countLeaves mmrSize ≤ getLeafOffset ⟨height, i⟩ := by
    rw [UInt64.le_iff_toNat_le, hleaves, hoffset]
    omega
  have hmin : ∀ a b : UInt64, (min a b).toNat = min a.toNat b.toNat := by
    intro a b
    rw [show min a b = if a ≤ b then a else b from rfl, Nat.min_def]
    simp only [UInt64.le_iff_toNat_le]
    split
    · rfl
    · rfl
  simp only [getSegmentUnprunedSize]
  rw [if_neg hmore, hmin, hrest, toNat_getSegmentCapacity hh]

/-- **The range of a full segment** ends with the root over its leaves. -/
theorem toNat_getPositionRange_full (hsize : mmrSize.toNat = leafPos n) (hn : n < 2 ^ 63)
    (hh : height.toNat < 63) (hfull : 2 ^ height.toNat * (i.toNat + 1) ≤ n) :
    (getPositionRange ⟨height, i⟩ mmrSize).1.toNat =
        leafPos (2 ^ height.toNat * i.toNat) ∧
      (getPositionRange ⟨height, i⟩ mmrSize).2.toNat = nodePos height.toNat i.toNat := by
  have hpos : 0 < 2 ^ height.toNat := Nat.two_pow_pos _
  have hcomm : i.toNat * 2 ^ height.toNat = 2 ^ height.toNat * i.toNat := Nat.mul_comm _ _
  have hsplit : 2 ^ height.toNat * (i.toNat + 1) = 2 ^ height.toNat * i.toNat + 2 ^ height.toNat :=
    Nat.mul_succ _ _
  have hoffset := toNat_getLeafOffset (i := i) hh (by omega)
  have hunpruned := toNat_getSegmentUnprunedSize hsize hn hh (i := i) (by omega)
  rw [hcomm] at hoffset hunpruned
  rw [Nat.min_eq_left (by omega)] at hunpruned
  have hcapacity := toNat_getSegmentCapacity (i := i) hh
  have hne : getSegmentUnprunedSize ⟨height, i⟩ mmrSize ≠ 0 := by
    intro hzero
    rw [hzero, UInt64.toNat_zero] at hunpruned
    omega
  have heq : getSegmentUnprunedSize ⟨height, i⟩ mmrSize = getSegmentCapacity ⟨height, i⟩ :=
    UInt64.toNat_inj.1 (hunpruned.trans hcapacity.symm)
  simp only [getPositionRange]
  rw [if_neg hne, if_pos heq]
  have hlast : (getLeafOffset ⟨height, i⟩ +
      getSegmentUnprunedSize ⟨height, i⟩ mmrSize - 1).toNat =
      2 ^ height.toNat * (i.toNat + 1) - 1 := by
    have hadd : (getLeafOffset ⟨height, i⟩ +
        getSegmentUnprunedSize ⟨height, i⟩ mmrSize).toNat =
        2 ^ height.toNat * (i.toNat + 1) := by
      rw [UInt64.toNat_add, hoffset, hunpruned, hsplit, Nat.mod_eq_of_lt (by omega)]
    rw [UInt64.toNat_sub_of_le _ _ (UInt64.le_iff_toNat_le.2 ?_), hadd, UInt64.toNat_one]
    rw [hadd, UInt64.toNat_one]
    omega
  refine ⟨?_, ?_⟩
  · rw [LeafIndex.toNat_getPosition (by omega), hoffset]
  · have hroot := nodePos_eq_last_leafPos_add height.toNat i.toNat
    have hroom : nodePos height.toNat i.toNat < leafPos n :=
      nodePos_lt_leafPos_iff.2 hfull
    have hword := mmrSize.toNat_lt
    rw [UInt64.toNat_add, UInt8.toNat_toUInt64,
      LeafIndex.toNat_getPosition (by omega), hlast, ← hroot,
      Nat.mod_eq_of_lt (by omega)]

/-- **The range of a partial segment** ends with the size. -/
theorem toNat_getPositionRange_last (hsize : mmrSize.toNat = leafPos n) (hn : n < 2 ^ 63)
    (hh : height.toNat < 63) (hlt : 2 ^ height.toNat * i.toNat < n)
    (hlast : n < 2 ^ height.toNat * (i.toNat + 1)) :
    (getPositionRange ⟨height, i⟩ mmrSize).1.toNat =
        leafPos (2 ^ height.toNat * i.toNat) ∧
      (getPositionRange ⟨height, i⟩ mmrSize).2.toNat = leafPos n - 1 := by
  have hcomm : i.toNat * 2 ^ height.toNat = 2 ^ height.toNat * i.toNat := Nat.mul_comm _ _
  have hsplit : 2 ^ height.toNat * (i.toNat + 1) = 2 ^ height.toNat * i.toNat + 2 ^ height.toNat :=
    Nat.mul_succ _ _
  have hoffset := toNat_getLeafOffset (i := i) hh (by omega)
  have hunpruned := toNat_getSegmentUnprunedSize hsize hn hh (i := i) (by omega)
  rw [hcomm] at hoffset hunpruned
  rw [Nat.min_eq_right (by omega)] at hunpruned
  have hcapacity := toNat_getSegmentCapacity (i := i) hh
  have hne : getSegmentUnprunedSize ⟨height, i⟩ mmrSize ≠ 0 := by
    intro hzero
    rw [hzero, UInt64.toNat_zero] at hunpruned
    omega
  have hpart : getSegmentUnprunedSize ⟨height, i⟩ mmrSize ≠
      getSegmentCapacity ⟨height, i⟩ := by
    intro heq
    rw [heq, hcapacity] at hunpruned
    omega
  have hpositive := le_leafPos n
  simp only [getPositionRange]
  rw [if_neg hne, if_neg hpart]
  refine ⟨?_, ?_⟩
  · rw [LeafIndex.toNat_getPosition (by omega), hoffset]
  · rw [UInt64.toNat_sub_of_le _ _ (UInt64.le_iff_toNat_le.2 ?_), hsize, UInt64.toNat_one]
    rw [hsize, UInt64.toNat_one]
    omega

end SegmentIdentifier

/-! ### Tiling -/

/-- **Blocks are nested or apart**: a peak behind the first leaf of the last block has all of
its leaves in that block. -/
theorem block_le_of_peak {h i h' j' n k : ℕ} (hpeak : (h', j') ∈ peaks k n)
    (hlast : n < 2 ^ h * (i + 1)) (hle : leafPos (2 ^ h * i) ≤ nodePos h' j') :
    2 ^ h * i ≤ 2 ^ h' * j' := by
  by_contra hlt
  have hin := leafPos_le_nodePos_iff.1 hle
  have hbound : 2 ^ h' * (j' + 1) ≤ n := ((consecutive_peaks k n).mem hpeak).2
  have hh : 0 < 2 ^ h := Nat.two_pow_pos h
  have hh' : 0 < 2 ^ h' := Nat.two_pow_pos h'
  rcases Nat.le_total h h' with hheight | hheight
  · have hsplit : 2 ^ h' = 2 ^ h * 2 ^ (h' - h) := by rw [← pow_add, Nat.add_sub_cancel' hheight]
    rw [hsplit, Nat.mul_assoc] at hin hbound
    have h1 := Nat.lt_of_mul_lt_mul_left hin
    have h2 := Nat.lt_of_mul_lt_mul_left (Nat.lt_of_le_of_lt hbound hlast)
    omega
  · have hsplit : 2 ^ h = 2 ^ h' * 2 ^ (h - h') := by rw [← pow_add, Nat.add_sub_cancel' hheight]
    rw [hsplit, Nat.mul_assoc] at hin hlt
    have h1 := Nat.lt_of_mul_lt_mul_left hin
    have h2 := Nat.lt_of_mul_lt_mul_left (Nat.lt_of_not_le hlt)
    omega

/-- **The last block** is the union of the subtrees of the peaks from its first leaf on. -/
theorem last_block_iff {h i n p : ℕ} (hlast : n < 2 ^ h * (i + 1)) :
    leafPos (2 ^ h * i) ≤ p ∧ p < leafPos n ↔
      ∃ q ∈ GrinPlusPlus.getPeakIndices (leafPos n), leafPos (2 ^ h * i) ≤ q ∧ Below p q := by
  constructor
  · rintro ⟨hle, hlt⟩
    obtain ⟨q, hq, hbelow⟩ := (lt_leafPos_iff_below n p).1 hlt
    exact ⟨q, hq, hle.trans (below_iff_under.1 hbelow).2, hbelow⟩
  · rintro ⟨q, hq, hle, hbelow⟩
    refine ⟨?_, (lt_leafPos_iff_below n p).2 ⟨q, hq, hbelow⟩⟩
    have hn := lt_two_pow_bitLength_leafPos n
    rw [getPeakIndices_leafPos, peaksFrom_eq hn] at hq
    obtain ⟨⟨h', j'⟩, hpeak, rfl⟩ := List.mem_map.1 hq
    have hblock := leafPos_strictMono.monotone (block_le_of_peak hpeak hlast hle)
    exact hblock.trans (below_nodePos_iff.1 hbelow).1

namespace SegmentIdentifier

/-- A position lies in the range of a segment. -/
def InRange (mmrSize : UInt64) (height : UInt8) (i : UInt64) (p : ℕ) : Prop :=
  (getPositionRange ⟨height, i⟩ mmrSize).1.toNat ≤ p ∧
    p ≤ (getPositionRange ⟨height, i⟩ mmrSize).2.toNat

/-- The segments of a size tile its leaves. -/
structure Tiles (mmrSize : UInt64) (height : UInt8) : Prop where
  /-- Every leaf is in exactly one range. -/
  leaf : ∀ p < mmrSize.toNat, PostOrder.height p = 0 →
    ∃! i, i < countSegmentsRequired mmrSize height ∧ InRange mmrSize height i p
  /-- A full segment is the complete subtree under its last position. -/
  full : ∀ i < countSegmentsRequired mmrSize height,
    getSegmentUnprunedSize ⟨height, i⟩ mmrSize = getSegmentCapacity ⟨height, i⟩ →
      PostOrder.height (getPositionRange ⟨height, i⟩ mmrSize).2.toNat = height.toNat ∧
      ∀ p, InRange mmrSize height i p ↔ Below p (getPositionRange ⟨height, i⟩ mmrSize).2.toNat
  /-- A partial segment is the last one: the subtrees of the peaks from its first leaf on. -/
  last : ∀ i < countSegmentsRequired mmrSize height,
    getSegmentUnprunedSize ⟨height, i⟩ mmrSize ≠ getSegmentCapacity ⟨height, i⟩ →
      i + 1 = countSegmentsRequired mmrSize height ∧
      ∀ p, InRange mmrSize height i p ↔ ∃ q ∈ MMRUtil.getPeakIndices mmrSize,
        (getPositionRange ⟨height, i⟩ mmrSize).1 ≤ q ∧ Below p q.toNat

variable {mmrSize : UInt64} {height : UInt8} {i : UInt64} {n : ℕ}

/-- A segment is full when its block of leaves is in the range. -/
theorem full_iff (hsize : mmrSize.toNat = leafPos n) (hn : n < 2 ^ 63) (hh : height.toNat < 63)
    (hi : i < countSegmentsRequired mmrSize height) :
    getSegmentUnprunedSize ⟨height, i⟩ mmrSize = getSegmentCapacity ⟨height, i⟩ ↔
      2 ^ height.toNat * (i.toNat + 1) ≤ n := by
  have hlt := (lt_countSegmentsRequired_iff hsize hn hh).1 hi
  have hcomm : i.toNat * 2 ^ height.toNat = 2 ^ height.toNat * i.toNat := Nat.mul_comm _ _
  rw [← UInt64.toNat_inj, toNat_getSegmentUnprunedSize hsize hn hh hlt,
    toNat_getSegmentCapacity hh, Nat.mul_succ]
  omega

/-- **The leaves in the range of a segment** are those of its block. -/
theorem inRange_leafPos_iff (hsize : mmrSize.toNat = leafPos n) (hn : n < 2 ^ 63)
    (hh : height.toNat < 63) (hi : i < countSegmentsRequired mmrSize height) {m : ℕ} (hm : m < n) :
    InRange mmrSize height i (leafPos m) ↔ m / 2 ^ height.toNat = i.toNat := by
  have hlt := (lt_countSegmentsRequired_iff hsize hn hh).1 hi
  have hpos : 0 < 2 ^ height.toNat := Nat.two_pow_pos _
  have hblock : m / 2 ^ height.toNat = i.toNat ↔
      2 ^ height.toNat * i.toNat ≤ m ∧ m < 2 ^ height.toNat * (i.toNat + 1) := by
    rw [Nat.div_eq_iff hpos, Nat.mul_succ, Nat.mul_comm i.toNat]
    omega
  rw [hblock, InRange]
  rcases Nat.lt_or_ge n (2 ^ height.toNat * (i.toNat + 1)) with hlast | hfull
  · obtain ⟨h1, h2⟩ := toNat_getPositionRange_last hsize hn hh (by rwa [Nat.mul_comm]) hlast
    have hleaf := leafPos_strictMono hm
    rw [h1, h2, leafPos_strictMono.le_iff_le]
    omega
  · obtain ⟨h1, h2⟩ := toNat_getPositionRange_full hsize hn hh hfull
    rw [h1, h2, leafPos_strictMono.le_iff_le, leafPos_le_nodePos_iff]

/-- The leaf numbers are the positions of height zero. -/
theorem exists_leafPos_of_lt {p : ℕ} (hp : p < leafPos n) (hleaf : PostOrder.height p = 0) :
    ∃ m < n, p = leafPos m := by
  obtain ⟨m, hm, h1, h2⟩ := exists_leafPos_le hp
  rw [height_between h1 h2] at hleaf
  exact ⟨m, hm, by omega⟩

/-- **Tiling** of the sizes whose leaves can be counted. -/
theorem tiles_of_leafPos (hsize : mmrSize.toNat = leafPos n) (hn : n < 2 ^ 63)
    (hh : height.toNat < 63) : Tiles mmrSize height := by
  have hpos : 0 < 2 ^ height.toNat := Nat.two_pow_pos _
  constructor
  case leaf =>
    intro p hp hleaf
    obtain ⟨m, hm, rfl⟩ := exists_leafPos_of_lt (hsize ▸ hp) hleaf
    have hdiv : m / 2 ^ height.toNat * 2 ^ height.toNat ≤ m := Nat.div_mul_le_self _ _
    have hword : (UInt64.ofNat (m / 2 ^ height.toNat)).toNat = m / 2 ^ height.toNat := by
      have := Nat.div_le_self m (2 ^ height.toNat)
      rw [UInt64.toNat_ofNat', Nat.mod_eq_of_lt (by omega)]
    have hi : UInt64.ofNat (m / 2 ^ height.toNat) < countSegmentsRequired mmrSize height := by
      rw [lt_countSegmentsRequired_iff hsize hn hh, hword]
      omega
    refine ⟨UInt64.ofNat (m / 2 ^ height.toNat),
      ⟨hi, (inRange_leafPos_iff hsize hn hh hi hm).2 hword.symm⟩, ?_⟩
    rintro i ⟨hi', hrange⟩
    refine UInt64.toNat_inj.1 ?_
    rw [hword, (inRange_leafPos_iff hsize hn hh hi' hm).1 hrange]
  case full =>
    intro i hi hfull
    obtain ⟨h1, h2⟩ :=
      toNat_getPositionRange_full hsize hn hh ((full_iff hsize hn hh hi).1 hfull)
    refine ⟨by rw [h2, height_nodePos], fun p => ?_⟩
    rw [InRange, h1, h2, below_nodePos_iff]
  case last =>
    intro i hi hpart
    have hlt := (lt_countSegmentsRequired_iff hsize hn hh).1 hi
    have hlast : n < 2 ^ height.toNat * (i.toNat + 1) :=
      Nat.lt_of_not_le fun hle => hpart ((full_iff hsize hn hh hi).2 hle)
    obtain ⟨h1, h2⟩ := toNat_getPositionRange_last hsize hn hh (by rwa [Nat.mul_comm]) hlast
    refine ⟨?_, fun p => ?_⟩
    · have hsucc : (i + 1).toNat = i.toNat + 1 := by
        have := UInt64.lt_iff_toNat_lt.1 hi
        have := (countSegmentsRequired mmrSize height).toNat_lt
        rw [UInt64.toNat_add, UInt64.toNat_one, Nat.mod_eq_of_lt (by omega)]
      have hstop : ¬i + 1 < countSegmentsRequired mmrSize height := by
        rw [lt_countSegmentsRequired_iff hsize hn hh, hsucc, Nat.mul_comm]
        omega
      rw [UInt64.lt_iff_toNat_lt] at hi hstop
      exact UInt64.toNat_inj.1 (by omega)
    · have hrange : InRange mmrSize height i p ↔
          leafPos (2 ^ height.toNat * i.toNat) ≤ p ∧ p < leafPos n := by
        have := le_leafPos n
        rw [InRange, h1, h2]
        omega
      rw [hrange, last_block_iff hlast, ← hsize]
      constructor
      · rintro ⟨q, hq, hle, hbelow⟩
        obtain ⟨q', hq', rfl⟩ := exists_mem_getPeakIndices hq
        exact ⟨q', hq', UInt64.le_iff_toNat_le.2 (h1 ▸ hle), hbelow⟩
      · rintro ⟨q, hq, hle, hbelow⟩
        exact ⟨q.toNat, mem_getPeakIndices.1 hq, h1 ▸ UInt64.le_iff_toNat_le.1 hle, hbelow⟩

/-- **The largest size**: its leaves are counted as none, and no segment is required. -/
theorem not_tiles_largest (hh : height.toNat < 63) : ¬Tiles 0xFFFFFFFFFFFFFFFF height := by
  intro htiles
  obtain ⟨i, ⟨hi, -⟩, -⟩ := htiles.leaf 0 (by decide) (height_leafPos 0)
  have hleaves : MMRUtil.countLeaves 0xFFFFFFFFFFFFFFFF = 0 := by
    refine UInt64.toNat_inj.1 ?_
    rw [MMRUtil.toNat_countLeaves, GrinPlusPlus.MMRUtil.countLeaves, if_neg (by decide),
      show (0xFFFFFFFFFFFFFFFF : UInt64).toNat = leafPos (2 ^ 63) from (leafPos_two_pow 63).symm,
      calculateLeafIndex_leafPos]
    rfl
  have hcapacity := toNat_getSegmentCapacity (i := 0) hh
  have hpos : 0 < 2 ^ height.toNat := Nat.two_pow_pos _
  have hcount : (countSegmentsRequired 0xFFFFFFFFFFFFFFFF height).toNat = 0 := by
    change ((MMRUtil.countLeaves 0xFFFFFFFFFFFFFFFF + getSegmentCapacity ⟨height, 0⟩ - 1) /
      getSegmentCapacity ⟨height, 0⟩).toNat = 0
    rw [hleaves, UInt64.zero_add, UInt64.toNat_div,
      UInt64.toNat_sub_of_le _ _ (UInt64.le_iff_toNat_le.2 ?_), hcapacity, UInt64.toNat_one]
    · exact Nat.div_eq_of_lt (by omega)
    · rw [hcapacity, UInt64.toNat_one]
      omega
  rw [UInt64.lt_iff_toNat_lt, hcount] at hi
  omega

/-- The sizes over some leaves: no siblings without their parent. -/
def PeakComplete (mmrSize : UInt64) : Prop :=
  ∃ n, mmrSize.toNat = leafPos n

/-- **The segments tile the leaves**, of every size but the largest. -/
theorem tiles_iff (hsize : PeakComplete mmrSize) (hh : height.toNat < 63) :
    Tiles mmrSize height ↔ mmrSize ≠ 0xFFFFFFFFFFFFFFFF := by
  constructor
  · rintro htiles rfl
    exact not_tiles_largest hh htiles
  · intro hne
    obtain ⟨n, hn⟩ := hsize
    refine tiles_of_leafPos hn ?_ hh
    by_contra hlarge
    have hmono := leafPos_strictMono.monotone (Nat.le_of_not_lt hlarge)
    have hlargest : leafPos (2 ^ 63) = 2 ^ 64 - 1 := leafPos_two_pow 63
    have hword := mmrSize.toNat_lt
    refine hne (UInt64.toNat_inj.1 ?_)
    change mmrSize.toNat = 2 ^ 64 - 1
    omega

/-- Eleven nodes over seven leaves, in segments of two leaves: three full ones and a part. -/
theorem tiles_seven : Tiles 11 1 :=
  (tiles_iff ⟨7, by decide⟩ (by decide)).2 (by decide)

/-- The largest word is a size, and its segments do not tile it. -/
theorem not_tiles_all : ¬∀ (mmrSize : UInt64) (height : UInt8), PeakComplete mmrSize →
    height.toNat < 63 →
    (countSegmentsRequired mmrSize height).toNat * 2 ^ height.toNat < 2 ^ 64 →
      Tiles mmrSize height := by
  intro hall
  have hzero : (0 : UInt8).toNat < 63 := by decide
  refine not_tiles_largest hzero (hall _ 0 ⟨2 ^ 63, ?_⟩ hzero ?_)
  · exact (leafPos_two_pow 63).symm
  · have hlt := (countSegmentsRequired 0xFFFFFFFFFFFFFFFF 0).toNat_lt
    rwa [show (0 : UInt8).toNat = 0 from rfl, pow_zero, Nat.mul_one]

end SegmentIdentifier

end GrinPlusPlus.Word
