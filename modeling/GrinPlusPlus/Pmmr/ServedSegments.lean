import GrinPlusPlus.Pmmr.SegmentServing

/-!
# What is served is accepted

A peer builds the segments of its range with `TxHashSetSegmenter::BuildSegment`; another one, that
knows the root and the bitmap of the unspent leaves, checks them. Both work out from their own
bitmap which leaves are needed, and the two agree (`GrinPlusPlus.SegmentReaders.Matches`).

The delicate thing is what the receiver does **not** look at. Over a tree of which it needs no leaf
its stack machine pushes nothing, whatever was sent; the hash of that tree is then looked up, next
to a tree that is needed or at the top of the segment. So what has to be shown is that a hash was
sent for every node where the machine may turn from the one to the other, and there is one node of
each kind where it was not: the leaf, which is sent as data. A leaf is therefore needed together
with its sibling (`GrinPlusPlus.requiredAt_sibling`), and a segment has to be higher than a leaf.

* `GrinPlusPlus.Segment.subtreeHash_of_required` – the machine over a tree that is needed;
* `GrinPlusPlus.SegmentReaders.Offers.buildSegment_ok` – every segment of the range is built, and
  leads to the root of the range.
-/

namespace GrinPlusPlus

open PostOrder Mountain MMRHashUtil MMRUtil Merkle Compact

/-! ### Nodes that are needed -/

theorem getFirstLeafIndex_nodePos (h j : ℕ) : getFirstLeafIndex (nodePos h j) h = 2 ^ h * j := by
  induction h generalizing j with
  | zero => rw [getFirstLeafIndex, nodePos_zero, calculateLeafIndex_leafPos, pow_zero, Nat.one_mul]
  | succ h ih =>
    rw [getFirstLeafIndex, Index.getLeftChild, ← nodePos_left, Nat.add_sub_cancel, ih, pow_succ,
      Nat.mul_assoc]

theorem div_two_pow_eq_iff {i h j : ℕ} :
    i / 2 ^ h = j ↔ 2 ^ h * j ≤ i ∧ i < 2 ^ h * (j + 1) := by
  rw [Nat.div_eq_iff (Nat.two_pow_pos h), Nat.mul_comm, Nat.mul_succ]
  have := Nat.two_pow_pos h
  omega

/-- **A node is needed** when an unspent leaf is under it. -/
theorem isRequiredByBitmap_nodePos_iff {bitmap : BitmapAccumulator} {n : ℕ} (hn : n < 2 ^ 63)
    {h j : ℕ} :
    isRequiredByBitmap bitmap (Index.ofPosition (nodePos h j)) (leafPos n) = true ↔
      ∃ i < n, i / 2 ^ h = j ∧ bitmap.contains i = true := by
  rw [isRequiredByBitmap, Index.ofPosition_nodePos, Index.node, List.any_eq_true]
  dsimp only
  rw [getFirstLeafIndex_nodePos, countLeaves_leafPos hn]
  refine exists_congr fun i => ?_
  rw [List.mem_range'_1, div_two_pow_eq_iff, Nat.mul_succ, ← and_assoc]
  refine and_congr_left fun _ => ?_
  omega

/-- A peak that is a leaf is the last node, which is needed. -/
theorem pos_or_requiredAt {n : ℕ} {q : ℕ × ℕ} (hq : q ∈ rangePeaks n) (unspent : ℕ → Bool) :
    1 ≤ q.1 ∨ requiredAt unspent n (2 ^ q.1 * q.2) = true := by
  obtain ⟨k, j⟩ := q
  rcases Nat.eq_zero_or_pos k with rfl | hpos
  · obtain ⟨-, hbit, hend⟩ := mem_peaks.1 hq
    have hlt := ((consecutive_rangePeaks n).mem hq).2
    have heven := even_of_mem_peaks hq
    have hnext := nodePos_succ_even 0 (j / 2)
    dsimp only at hlt heven
    rw [show 2 * (j / 2) = j by omega, nodePos_zero, pow_zero, Nat.one_mul] at hnext
    rw [pow_zero, Nat.one_mul] at hlt
    rw [pow_zero, Nat.div_one] at hend
    right
    dsimp only
    rw [pow_zero, Nat.one_mul, requiredAt, hnext, show j + 1 = n by omega, beq_self_eq_true,
      Bool.or_true, Bool.true_or]
  · exact .inl hpos

namespace SegmentReaders

variable {α : Type} {G : Global} {serialized : α → List UInt8} {r : SegmentReaders α}
  {l : PruneList} {full : List Hash} {leaves : List α} {bitmap : Option BitmapAccumulator}
  {n i : ℕ}

/-- The receiver knows which leaves are unspent; of a range that cannot be pruned it needs all. -/
inductive Matches (r : SegmentReaders α) (n : ℕ) : Option BitmapAccumulator → Prop
  | plain (hplain : r.prunable = false) : Matches r n none
  | pruned {bitmap : BitmapAccumulator} (hprunable : r.prunable = true)
      (hbits : ∀ i < n, bitmap.contains i = r.isUnpruned i) : Matches r n (some bitmap)

theorem Matches.prunable_eq (hm : r.Matches n bitmap) : r.prunable = bitmap.isSome := by
  cases hm with
  | plain hplain => exact hplain
  | pruned hprunable _ => exact hprunable

/-- **Both sides need the same leaves.** -/
theorem Matches.leafRequired_eq {bits : BitmapAccumulator} (hm : r.Matches n (some bits))
    (hn : n < 2 ^ 63) (hi : i < n) :
    Segment.leafRequired (some bits) (leafPos i) (leafPos n) = requiredAt r.isUnpruned n i := by
  cases hm with
  | pruned _ hbits =>
    rw [Segment.leafRequired]
    exact (isLeafRequiredByBitmap_leafPos bits hn i).trans (requiredAt_congr hbits hi)

/-- A leaf that is needed is there. -/
theorem Offers.of_leafRequired (h : r.Offers G serialized l full leaves)
    (hm : r.Matches leaves.length bitmap) (hn : leaves.length < 2 ^ 63) (hi : i < leaves.length)
    (hrequired : Segment.leafRequired bitmap (leafPos i) (leafPos leaves.length) = true) :
    l.isCompacted (leafPos i) = false := by
  cases hm with
  | plain hplain => rw [h.plain hplain, PruneList.empty_isCompacted]
  | pruned hprunable hbits =>
    rw [(Matches.pruned hprunable hbits).leafRequired_eq hn hi] at hrequired
    exact h.apart.of_requiredAt h.roots_lt h.unspent hi hrequired

/-- What is under a pruned root is not in the bitmap. -/
theorem Offers.not_contains_of_root (h : r.Offers G serialized l full leaves)
    {bits : BitmapAccumulator} (hm : r.Matches leaves.length (some bits)) (hi : i < leaves.length)
    {k : ℕ} (hk : 0 < k) (hroot : nodePos k (i / 2 ^ k) ∈ l.prunedRoots) :
    bits.contains i = false := by
  have hgone := h.apart.isCompacted_leaf_iff.2 ⟨k, hk, hroot⟩
  cases hm with
  | pruned _ hbits =>
    rw [← Bool.not_eq_true]
    intro hbit
    rw [h.unspent i hi (by rw [← hbits i hi, hbit])] at hgone
    cases hgone

/-- Siblings are needed together. -/
theorem Matches.leafRequired_sibling (hm : r.Matches n bitmap) (hn : n < 2 ^ 63) (hi : i < n)
    (hs : sibling i < n) :
    Segment.leafRequired bitmap (leafPos (sibling i)) (leafPos n) =
      Segment.leafRequired bitmap (leafPos i) (leafPos n) := by
  cases hm with
  | plain => rfl
  | pruned hprunable hbits =>
    have hm := Matches.pruned hprunable hbits
    rw [hm.leafRequired_eq hn hi, hm.leafRequired_eq hn hs, requiredAt_sibling hi hs]

end SegmentReaders

/-! ### The machine over a tree -/

namespace Segment

variable {α : Type} {G : Global} {serialized : α → List UInt8} {r : SegmentReaders α}
  {l : PruneList} {full : List Hash} {leaves : List α} {bitmap : Option BitmapAccumulator}
  {s : Segment α} {n h j : ℕ}

/-- What a segment has of the tree of a node: the leaves and the hashes that are not missing. -/
structure Has (s : Segment α) (l : PruneList) (full : List Hash) (leaves : List α)
    (useBitmap : Bool) (h j : ℕ) : Prop where
  /-- The leaves. -/
  leaf : ∀ i, i / 2 ^ h = j → l.isCompacted (PostOrder.leafPos i) = false →
    s.getLeafAt (PostOrder.leafPos i) = leaves[i]?
  /-- The hashes of the nodes that are no leaves. -/
  hash : useBitmap = true → ∀ k m, 1 ≤ k → k ≤ h → m / 2 ^ (h - k) = j →
    l.isCompacted (nodePos k m) = false →
      s.getProvidedStoredHash (nodePos k m) = some (entryAt full (nodePos k m))

theorem Has.child {useBitmap : Bool} (hs : s.Has l full leaves useBitmap (h + 1) (j / 2)) :
    s.Has l full leaves useBitmap h j where
  leaf i hi := hs.leaf i (by rw [div_two_pow_succ, hi])
  hash huse k m h1 h2 hdiv := hs.hash huse k m h1 (by omega) (by
    rw [show h + 1 - k = h - k + 1 by omega, div_two_pow_succ, hdiv])

/-- A hash that the machine comes to at a node: it is on the stack, or it is looked up. -/
def Available (s : Segment α) (useBitmap : Bool) (position : ℕ) (value : Hash)
    (hash : Option Hash) : Prop :=
  hash = some value ∨
    hash = none ∧ useBitmap = true ∧ s.getProvidedStoredHash position = some value

theorem parentHash_of_available {useBitmap : Bool} {left right : Hash}
    {leftHash rightHash : Option Hash}
    (hl : s.Available useBitmap (nodePos h (2 * j)) left leftHash)
    (hr : s.Available useBitmap (nodePos h (2 * j + 1)) right rightHash)
    (hsome : leftHash.isSome ∨ rightHash.isSome) :
    parentHash G s useBitmap (nodePos (h + 1) j) leftHash rightHash =
      some (some (hashParentWithIndex G left right (nodePos (h + 1) j))) := by
  have hleft : Index.getLeftChild (nodePos (h + 1) j) (h + 1) = nodePos h (2 * j) := by
    rw [Index.getLeftChild, ← nodePos_left, Nat.add_sub_cancel]
  have hright : Index.getRightChild (nodePos (h + 1) j) = nodePos h (2 * j + 1) := by
    rw [Index.getRightChild, ← nodePos_right, Nat.add_sub_cancel]
  rw [parentHash, Index.calculateHeight, height_nodePos, hleft, hright]
  rcases hl with rfl | ⟨rfl, huse, hl⟩
  · rcases hr with rfl | ⟨rfl, huse, hr⟩
    · simp
    · simp [huse, hr]
  · rcases hr with rfl | ⟨rfl, -, -⟩
    · simp [huse, hl]
    · simp at hsome

/-- A tree has a leaf that is needed, or it has none. -/
theorem required_or_not_required (bitmap : Option BitmapAccumulator) (h j mmrSize : ℕ) :
    (∃ i, i / 2 ^ h = j ∧ leafRequired bitmap (PostOrder.leafPos i) mmrSize = true) ∨
      ∀ i, i / 2 ^ h = j → leafRequired bitmap (PostOrder.leafPos i) mmrSize = false := by
  by_cases hneeded :
      ∃ i, i / 2 ^ h = j ∧ leafRequired bitmap (PostOrder.leafPos i) mmrSize = true
  · exact .inl hneeded
  · refine .inr fun i hi => ?_
    rw [← Bool.not_eq_true]
    exact fun hrequired => hneeded ⟨i, hi, hrequired⟩

/-- Without a bitmap every leaf is needed. -/
theorem isSome_of_not_required {mmrSize : ℕ}
    (hnot : ∀ i, i / 2 ^ h = j → leafRequired bitmap (PostOrder.leafPos i) mmrSize = false) :
    bitmap.isSome = true := by
  cases bitmap with
  | none =>
    have := hnot (2 ^ h * j) (Nat.mul_div_cancel_left _ (Nat.two_pow_pos h))
    cases this
  | some bits => rfl

/-- **Over a tree that is not needed** the machine pushes nothing, whatever was sent. -/
theorem subtreeHash_of_not_required {mmrSize : ℕ}
    (hnot : ∀ i, i / 2 ^ h = j → leafRequired bitmap (PostOrder.leafPos i) mmrSize = false) :
    subtreeHash G serialized s mmrSize bitmap h j = some none := by
  have huse := isSome_of_not_required hnot
  induction h generalizing j with
  | zero =>
    rw [subtreeHash, leafEntry, nodePos_zero, hnot j (by rw [pow_zero, Nat.div_one]),
      if_neg Bool.false_ne_true]
  | succ h ih =>
    rw [subtreeHash, ih fun i hi => hnot i (by rw [div_two_pow_succ, hi]; omega), Option.bind_some,
      ih fun i hi => hnot i (by rw [div_two_pow_succ, hi]; omega), Option.bind_some, parentHash,
      huse]
    rfl

/-- **Over a tree that is needed** it pushes the hash of the tree. -/
theorem subtreeHash_of_required (ho : r.Offers G serialized l full leaves)
    (hm : r.Matches leaves.length bitmap) (hn : leaves.length < 2 ^ 63)
    (hle : 2 ^ h * (j + 1) ≤ leaves.length) (hs : s.Has l full leaves bitmap.isSome h j)
    (hrequired : ∃ i, i / 2 ^ h = j ∧
      leafRequired bitmap (PostOrder.leafPos i) (PostOrder.leafPos leaves.length) = true) :
    subtreeHash G serialized s (PostOrder.leafPos leaves.length) bitmap h j =
      some (some (entryAt full (nodePos h j))) := by
  induction h generalizing j with
  | zero =>
    obtain ⟨i, hi, hrequired⟩ := hrequired
    rw [pow_zero, Nat.div_one] at hi
    subst hi
    have hi : i < leaves.length := by omega
    have hleaf : (leaves.map serialized)[i]? = some (serialized leaves[i]) := by
      rw [List.getElem?_map, List.getElem?_eq_getElem hi, Option.map_some]
    rw [subtreeHash, leafEntry, nodePos_zero, if_pos hrequired,
      hs.leaf i (by rw [pow_zero, Nat.div_one]) (ho.of_leafRequired hm hn hi hrequired),
      List.getElem?_eq_getElem hi, Option.map_some, entryAt, List.getD_eq_getElem?_getD,
      ho.range.leaf i _ hleaf, Option.getD_some]
    rfl
  | succ h ih =>
    have hlt : nodePos (h + 1) j < PostOrder.leafPos leaves.length := nodePos_lt_leafPos_iff.2 hle
    rw [two_pow_succ_mul] at hle
    obtain ⟨i, hi, hrequired⟩ := hrequired
    -- one of the children is needed, the other is needed as well or can be looked up
    have hchild : ∀ c, c / 2 = j →
        (∃ i, i / 2 ^ h = c ∧ leafRequired bitmap (PostOrder.leafPos i)
          (PostOrder.leafPos leaves.length) = true) →
        subtreeHash G serialized s (PostOrder.leafPos leaves.length) bitmap h c =
          some (some (entryAt full (nodePos h c))) := by
      intro c hc hneeded
      refine ih ?_ (Has.child (hc.symm ▸ hs)) hneeded
      refine le_trans (Nat.mul_le_mul_left _ (show c + 1 ≤ 2 * (j + 1) by omega)) ?_
      rwa [Nat.mul_left_comm]
    have hother : ∀ c, c / 2 = j → (∃ i, i / 2 ^ h = sibling c ∧
          leafRequired bitmap (PostOrder.leafPos i) (PostOrder.leafPos leaves.length) = true) →
        ∃ entry, subtreeHash G serialized s (PostOrder.leafPos leaves.length) bitmap h c =
          some entry ∧ s.Available bitmap.isSome (nodePos h c) (entryAt full (nodePos h c))
            entry := by
      intro c hc hneeded
      rcases required_or_not_required bitmap h c (PostOrder.leafPos leaves.length) with
        hself | hnot
      · exact ⟨_, hchild c hc hself, .inl rfl⟩
      · obtain ⟨i, hi, hrequired⟩ := hneeded
        have hlt' : ∀ m, m / 2 ^ h / 2 = j → m < leaves.length := by
          intro m hm'
          rw [← div_two_pow_succ, div_two_pow_eq_iff, two_pow_succ_mul, two_pow_succ_mul] at hm'
          omega
        have hsib := sibling_div_two c
        have hi' := hlt' i (by rw [hi]; omega)
        -- leaves are needed in pairs, so this is no leaf
        have hpos : 1 ≤ h := by
          by_contra hzero
          obtain rfl : h = 0 := by omega
          rw [pow_zero, Nat.div_one] at hi
          subst hi
          have hcn := hlt' c (by rw [pow_zero, Nat.div_one]; exact hc)
          rw [hm.leafRequired_sibling hn hcn hi',
            hnot c (by rw [pow_zero, Nat.div_one])] at hrequired
          cases hrequired
        have huse := isSome_of_not_required hnot
        have hthere : l.isCompacted (nodePos h c) = false := by
          rw [ho.apart.isCompacted_sibling (show c / 2 = sibling c / 2 from hsib.symm)]
          by_contra hgone
          rw [Bool.not_eq_false] at hgone
          have := ho.apart.isCompacted_below (h := 0) (Nat.zero_le h)
            (show i / 2 ^ (h - 0) = sibling c from hi) hgone
          rw [nodePos_zero, ho.of_leafRequired hm hn hi' hrequired] at this
          cases this
        exact ⟨none, subtreeHash_of_not_required hnot, .inr ⟨rfl, huse,
          hs.hash huse h c hpos (Nat.le_succ h) (by
            rw [Nat.add_sub_cancel_left, pow_one]
            exact hc) hthere⟩⟩
    rw [subtreeHash, SegmentProof.entryAt_parent ho.range (by rwa [List.length_map])]
    have hdiv : i / 2 ^ h / 2 = j := by rw [← div_two_pow_succ, hi]
    obtain hl | hr : i / 2 ^ h = 2 * j ∨ i / 2 ^ h = 2 * j + 1 := by omega
    · have hsib : sibling (2 * j + 1) = 2 * j := by
        rw [sibling, if_neg (by omega), Nat.add_sub_cancel]
      obtain ⟨entry, hentry, havailable⟩ := hother (2 * j + 1) (by omega)
        ⟨i, by rw [hl, hsib], hrequired⟩
      rw [hchild (2 * j) (by omega) ⟨i, hl, hrequired⟩, Option.bind_some, hentry,
        Option.bind_some]
      exact parentHash_of_available (.inl rfl) havailable (.inl rfl)
    · have hsib : sibling (2 * j) = 2 * j + 1 := by rw [sibling, if_pos (by omega)]
      obtain ⟨entry, hentry, havailable⟩ := hother (2 * j) (by omega)
        ⟨i, by rw [hr, hsib], hrequired⟩
      rw [hentry, Option.bind_some, hchild (2 * j + 1) (by omega) ⟨i, hr, hrequired⟩,
        Option.bind_some]
      exact parentHash_of_available havailable (.inl rfl) (.inr rfl)

end Segment

/-! ### The segments that are served -/

namespace SegmentParts

variable {α : Type} {parts : SegmentParts α} {id : SegmentIdentifier} {proof : SegmentProof}

theorem getLeafAt_toSegment (p : ℕ) :
    (parts.toSegment id proof).getLeafAt p = parts.leaves.lookup p := by
  rw [Segment.getLeafAt, toSegment, List.zip_map', List.map_id'']
  exact fun _ => rfl

theorem getProvidedStoredHash_toSegment (p : ℕ) :
    (parts.toSegment id proof).getProvidedStoredHash p = parts.hashes.lookup p := by
  rw [Segment.getProvidedStoredHash, toSegment, List.zip_map', List.map_id'']
  exact fun _ => rfl

theorem deserialized_toSegment (hhashes : (parts.hashes.map Prod.fst).Pairwise (· < ·))
    (hleaves : (parts.leaves.map Prod.fst).Pairwise (· < ·)) :
    (parts.toSegment id proof).Deserialized where
  hashPos_sorted := hhashes
  length_hashes := by rw [toSegment, List.length_map, List.length_map]
  leafPos_sorted := hleaves
  length_leaves := by rw [toSegment, List.length_map, List.length_map]

end SegmentParts

namespace SegmentReaders

variable {α : Type} {G : Global} {serialized : α → List UInt8} {r : SegmentReaders α}
  {l : PruneList} {full : List Hash} {leaves : List α} {bitmap : Option BitmapAccumulator}
  {id : SegmentIdentifier} {h i : ℕ}

/-- Everything that is there of some positions. -/
def offered (r : SegmentReaders α) (l : PruneList) (full : List Hash) (leaves : List α)
    (positions : List ℕ) : SegmentParts α :=
  ⟨tabulate (sentHash r.prunable l full) positions, tabulate (sentLeaf l leaves) positions⟩

/-- The positions of a segment. -/
def positions (id : SegmentIdentifier) (mmrSize : ℕ) : List ℕ :=
  List.range' (id.getPositionRange mmrSize).1
    ((id.getPositionRange mmrSize).2 - (id.getPositionRange mmrSize).1 + 1)

theorem pairwise_positions (id : SegmentIdentifier) (mmrSize : ℕ) :
    (positions id mmrSize).Pairwise (· < ·) :=
  List.pairwise_lt_range'

/-- **What is served**: everything that is there of the segment, or the root of the tree that it is
missing with. -/
inductive Serves (r : SegmentReaders α) (l : PruneList) (full : List Hash) (leaves : List α)
    (id : SegmentIdentifier) (h i : ℕ) : Segment α → Prop
  | nodes (proof : SegmentProof)
      (hthere : 2 ^ h * (i + 1) ≤ leaves.length → l.isCompacted (nodePos h i) = false) :
      Serves r l full leaves id h i
        ((r.offered l full leaves (positions id (leafPos leaves.length))).toSegment id proof)
  | root (proof : SegmentProof) {k : ℕ} (hk : h < k)
      (hroot : nodePos k (i / 2 ^ (k - h)) ∈ l.prunedRoots) :
      Serves r l full leaves id h i
        ((⟨[(nodePos k (i / 2 ^ (k - h)), entryAt full (nodePos k (i / 2 ^ (k - h))))], []⟩ :
          SegmentParts α).toSegment id proof)

theorem pairwise_offered (positions : List ℕ) (hsorted : positions.Pairwise (· < ·)) :
    ((r.offered l full leaves positions).hashes.map Prod.fst).Pairwise (· < ·) ∧
      ((r.offered l full leaves positions).leaves.map Prod.fst).Pairwise (· < ·) :=
  ⟨hsorted.sublist keys_tabulate_sublist, hsorted.sublist keys_tabulate_sublist⟩

/-- A segment as it is served can be deserialized. -/
theorem Serves.deserialized {s : Segment α} (hs : r.Serves l full leaves id h i s) :
    s.Deserialized := by
  cases hs with
  | nodes proof _ =>
    have hsorted := @pairwise_offered _ r l full leaves
      _ (pairwise_positions id (leafPos leaves.length))
    exact SegmentParts.deserialized_toSegment hsorted.1 hsorted.2
  | root proof hk hroot =>
    exact SegmentParts.deserialized_toSegment (List.pairwise_singleton _ _) List.Pairwise.nil

/-- What is offered of the positions of a node is all that is needed of it. -/
theorem has_offered {ps : List ℕ} {proof : SegmentProof} {k m : ℕ}
    (hps : ∀ p, leafPos (2 ^ k * m) ≤ p → p ≤ nodePos k m → p ∈ ps) :
    ((r.offered l full leaves ps).toSegment id proof).Has l full leaves r.prunable k m where
  leaf a ha hthere := by
    have hmem : leafPos a ∈ ps := by
      rw [div_two_pow_eq_iff] at ha
      exact hps _ (leafPos_strictMono.monotone ha.1) (leafPos_le_nodePos_iff.2 ha.2)
    rw [SegmentParts.getLeafAt_toSegment, offered, lookup_tabulate, if_pos hmem, sentLeaf,
      if_pos ⟨height_leafPos a, hthere⟩, calculateLeafIndex_leafPos]
  hash huse a b h1 h2 hdiv hthere := by
    have hbelow := below_iff.2 ⟨h2, hdiv⟩
    rw [SegmentParts.getProvidedStoredHash_toSegment, offered, lookup_tabulate,
      if_pos (hps _ hbelow.1 hbelow.2), sentHash, huse, height_nodePos, if_neg]
    rintro (hfalse | hzero | hgone)
    · cases hfalse
    · omega
    · rw [hthere] at hgone
      cases hgone

namespace Offers

/-- The peaks of the range are there. -/
theorem peak_not_compacted (ho : r.Offers G serialized l full leaves) {q : ℕ × ℕ}
    (hq : q ∈ rangePeaks leaves.length) : l.isCompacted (nodePos q.1 q.2) = false := by
  rw [← Bool.not_eq_true, ho.apart.isCompacted_iff]
  rintro ⟨root, hroot, hunder, hne⟩
  have hpeak : nodePos q.1 q.2 ∈ getPeakIndices (leafPos leaves.length) := by
    rw [getPeakIndices_eq]
    exact List.mem_map_of_mem hq
  rw [getPeakIndices_leafPos] at hpeak
  exact hne (eq_of_under_peak (lt_two_pow_bitLength_leafPos _) hpeak (ho.roots_lt root hroot)
    hunder).symm

theorem readHash_eq (ho : r.Offers G serialized l full leaves) {p : ℕ}
    (hp : p < leafPos leaves.length) (hthere : l.isCompacted p = false) :
    r.readHash p = pure (entryAt full p) := by
  rw [ho.hash p hp, hthere, if_neg Bool.false_ne_true]

theorem readsPeaks (ho : r.Offers G serialized l full leaves) :
    SegmentProof.ReadsPeaks r.readHash full leaves.length := by
  intro q hq
  refine ho.readHash_eq ?_ (ho.peak_not_compacted hq)
  exact nodePos_lt_leafPos_iff.2 ((consecutive_rangePeaks _).mem hq).2

/-- **The siblings of a proof are there**, from the node itself or from a root above it on. -/
theorem read_siblings (ho : r.Offers G serialized l full leaves) {k j start : ℕ} (hk : h ≤ k)
    (hstart : start = nodePos k (j / 2 ^ (k - h))) (hthere : l.isCompacted start = false)
    {entry : ℕ × ℕ} (hmem : entry ∈ familyBranch (nodePos h j) (leafPos leaves.length))
    (hle : start + 1 ≤ entry.1) : r.readHash entry.2 = pure (entryAt full entry.2) := by
  rw [familyBranch] at hmem
  split at hmem
  · cases hmem
  · rw [Index.ofPosition_nodePos] at hmem
    obtain ⟨a, ha, h1, h2, h3⟩ := mem_familyBranchFrom hmem
    have hsib := sibling_div_two (j / 2 ^ (a - h))
    -- the node next to the sibling is the start or a node above it
    have hka : k ≤ a := by
      by_contra hlt
      have hdiv : j / 2 ^ (a - h) / 2 / 2 ^ (k - (a + 1)) = j / 2 ^ (k - h) := by
        rw [Nat.div_div_eq_div_mul, Nat.div_div_eq_div_mul, ← pow_succ', ← pow_add]
        congr 2
        omega
      have := nodePos_le_of_div_eq (show a + 1 ≤ k by omega) hdiv
      omega
    have hnext : l.isCompacted (nodePos a (j / 2 ^ (a - h))) = false := by
      by_contra hgone
      rw [Bool.not_eq_false] at hgone
      rw [hstart, ho.apart.isCompacted_below hka (by
        rw [Nat.div_div_eq_div_mul, ← pow_add]
        congr 2
        omega) hgone] at hthere
      cases hthere
    have hlt := nodePos_lt_parent a (sibling (j / 2 ^ (a - h)))
    rw [hsib, ← h1, ← h3] at hlt
    refine ho.readHash_eq (hlt.trans h2) ?_
    rw [h3, ho.apart.isCompacted_sibling hsib]
    exact hnext

/-! ### Building one segment -/

theorem buildSegment_eq (ho : r.Offers G serialized l full leaves)
    (hsize : id.getSegmentUnprunedSize (leafPos leaves.length) ≠ 0)
    (hlt : ∀ p ∈ positions id (leafPos leaves.length), p < leafPos leaves.length) :
    TxHashSetSegmenter.buildSegment G r (leafPos leaves.length) id = (do
      let parts := r.offered l full leaves (positions id (leafPos leaves.length))
      let posRange := id.getPositionRange (leafPos leaves.length)
      let above ←
        if parts.leaves.isEmpty && parts.hashes.isEmpty then
          TxHashSetSegmenter.firstHashAbove r (familyBranch posRange.2 (leafPos leaves.length))
        else pure none
      let proof ← SegmentProof.generate G r.readHash (leafPos leaves.length) posRange.1 posRange.2
        (above.map fun entry => entry.1 + 1)
      pure (({ parts with hashes := parts.hashes ++ above.toList } : SegmentParts α).toSegment
        id proof)) := by
  rw [TxHashSetSegmenter.buildSegment, if_neg hsize]
  dsimp only
  have hcollect := ho.collectNodes_eq hlt ⟨[], []⟩
  rw [positions] at hcollect
  rw [hcollect, pure_bind, List.nil_append, List.nil_append]
  rfl

variable {n : ℕ}

theorem mem_positions_full (hid : id.Block h i) (hn : n < 2 ^ 63) (hblock : 2 ^ h * (i + 1) ≤ n)
    {p : ℕ} : p ∈ positions id (leafPos n) ↔ leafPos (2 ^ h * i) ≤ p ∧ p ≤ nodePos h i := by
  have hroot := nodePos_eq_leafPos_add h i
  rw [positions, hid.getPositionRange_full (by rwa [countLeaves_leafPos hn]), List.mem_range'_1]
  omega

theorem mem_positions_last (hid : id.Block h i) (hn : n < 2 ^ 63) (hfirst : 2 ^ h * i < n)
    (hlast : n < 2 ^ h * (i + 1)) {p : ℕ} :
    p ∈ positions id (leafPos n) ↔ leafPos (2 ^ h * i) ≤ p ∧ p < leafPos n := by
  have hcount := countLeaves_leafPos hn
  have hlt := leafPos_strictMono hfirst
  rw [positions, hid.getPositionRange_last (hcount.symm ▸ hfirst) (hcount.symm ▸ hlast),
    List.mem_range'_1]
  omega

/-- The positions of a full segment are those of its tree. -/
theorem positions_full (hid : id.Block h i) (hn : n < 2 ^ 63) (hblock : 2 ^ h * (i + 1) ≤ n) :
    positions id (leafPos n) = block h i := by
  have hroot := nodePos_eq_leafPos_add h i
  have hpos := Nat.two_pow_pos h
  rw [positions, hid.getPositionRange_full (by rwa [countLeaves_leafPos hn]), block, hroot,
    pow_succ]
  congr 1
  omega

/-- Those of the last segment are those of its peaks. -/
theorem positions_last (hid : id.Block h i) (hn : n < 2 ^ 63) (hfirst : 2 ^ h * i < n)
    (hlast : n < 2 ^ h * (i + 1)) :
    positions id (leafPos n) = (peaks h n).flatMap fun q => block q.1 q.2 := by
  obtain ⟨-, p, back, -, hpeaks, hrun, -⟩ := Segment.rangePeaks_last hfirst hlast
  have hcount := countLeaves_leafPos hn
  have hlt := leafPos_strictMono hfirst
  rw [positions, hid.getPositionRange_last (hcount.symm ▸ hfirst) (hcount.symm ▸ hlast), hpeaks,
    ← range'_eq_flatMap hrun fun q hq => even_of_mem_peaks (hpeaks ▸ hq)]
  congr 1
  omega

/-- **A segment of which something is there.** -/
theorem buildSegment_nodes (ho : r.Offers G serialized l full leaves) (hid : id.Block h i)
    (hn : leaves.length < 2 ^ 63) (hpos : 1 ≤ h) (hblock : 2 ^ h * (i + 1) ≤ leaves.length)
    (hthere : l.isCompacted (nodePos h i) = false) :
    ∃ proof : SegmentProof,
      TxHashSetSegmenter.buildSegment G r (leafPos leaves.length) id =
        pure ((r.offered l full leaves (positions id (leafPos leaves.length))).toSegment id proof) ∧
      proof.reconstructRoot G (leafPos leaves.length) (leafPos (2 ^ h * i)) (nodePos h i)
        (entryAt full (nodePos h i)) (nodePos h i + 1) =
          some (Merkle.root (combine G) (entryAt full) (rangeTree leaves.length)) := by
  have hcount := countLeaves_leafPos hn
  have hmem := @mem_positions_full _ _ _ _ hid hn hblock
  have htop := nodePos_lt_leafPos_iff.2 hblock
  have hroot := nodePos_eq_leafPos_add h i
  -- the top is sent, or the first leaf is
  have hsome : ((r.offered l full leaves (positions id (leafPos leaves.length))).leaves.isEmpty &&
      (r.offered l full leaves (positions id (leafPos leaves.length))).hashes.isEmpty) = false := by
    have hhas : ((r.offered l full leaves (positions id (leafPos leaves.length))).toSegment id
        ⟨[]⟩).Has l full leaves r.prunable h i :=
      has_offered fun p h1 h2 => hmem.2 ⟨h1, h2⟩
    rw [← Bool.not_eq_true, Bool.and_eq_true, List.isEmpty_iff, List.isEmpty_iff]
    rintro ⟨hleaves, hhashes⟩
    cases hprunable : r.prunable with
    | true =>
      have := hhas.hash hprunable h i hpos le_rfl
        (by rw [Nat.sub_self, pow_zero, Nat.div_one]) hthere
      rw [SegmentParts.getProvidedStoredHash_toSegment, hhashes] at this
      cases this
    | false =>
      have hlt : 2 ^ h * i < leaves.length := by
        have := Nat.two_pow_pos h
        rw [Nat.mul_succ] at hblock
        omega
      have := hhas.leaf (2 ^ h * i) (Nat.mul_div_cancel_left _ (Nat.two_pow_pos h))
        (by rw [ho.plain hprunable, PruneList.empty_isCompacted])
      rw [SegmentParts.getLeafAt_toSegment, hleaves, List.getElem?_eq_getElem hlt] at this
      cases this
  obtain ⟨proof, hproof, hreconstruct⟩ := SegmentProof.generate_node r.readHash
    ho.range (h := h) (j := i) (by rwa [List.length_map]) (.node)
    (fun entry hentry hle => by
      rw [List.length_map] at hentry
      exact ho.read_siblings (k := h) le_rfl
        (by rw [Nat.sub_self, pow_zero, Nat.div_one]) hthere hentry hle)
    (by
      rw [List.length_map]
      exact ho.readsPeaks)
  rw [List.length_map] at hproof hreconstruct
  refine ⟨proof, ?_, hreconstruct⟩
  rw [ho.buildSegment_eq]
  · dsimp only
    rw [hsome, if_neg Bool.false_ne_true, pure_bind,
      hid.getPositionRange_full (hcount.symm ▸ hblock), Option.map_none, hproof, pure_bind,
      Option.toList_none, List.append_nil]
  · rw [hid.getSegmentUnprunedSize_full (hcount.symm ▸ hblock)]
    exact (Nat.two_pow_pos _).ne'
  · intro p hp
    have := (hmem.1 hp).2
    omega

/-- What is missing of a tree is missing as a whole. -/
theorem offered_eq_nil {ps : List ℕ} (hgone : ∀ p ∈ ps, l.isCompacted p = true) :
    r.offered l full leaves ps = ⟨[], []⟩ := by
  rw [offered, tabulate, tabulate, List.filterMap_eq_nil_iff.2, List.filterMap_eq_nil_iff.2]
  · intro p hp
    rw [sentLeaf, if_neg (by rw [hgone p hp]; simp), Option.map_none]
  · intro p hp
    rw [sentHash, if_pos (.inr (.inr (hgone p hp))), Option.map_none]

/-- The first hash above a node that is missing is the root that it is missing with. -/
theorem firstHashAbove_eq (ho : r.Offers G serialized l full leaves) {k j : ℕ} (hk : h < k)
    (hroot : nodePos k (j / 2 ^ (k - h)) ∈ l.prunedRoots) :
    TxHashSetSegmenter.firstHashAbove r (familyBranch (nodePos h j) (leafPos leaves.length)) =
      pure (some (nodePos k (j / 2 ^ (k - h)), entryAt full (nodePos k (j / 2 ^ (k - h))))) := by
  have hlt := ho.roots_lt _ hroot
  have hle := nodePos_le_of_div_eq hk.le (rfl : j / 2 ^ (k - h) = _)
  obtain ⟨front, other, back, heq, hfront⟩ := exists_familyBranchFrom_eq hk hlt
    (show leafPos leaves.length ≤ nodePos h j + leafPos leaves.length by omega)
  rw [familyBranch, if_neg (by omega), Index.ofPosition_nodePos, heq]
  clear heq
  induction front with
  | nil =>
    rw [List.nil_append, TxHashSetSegmenter.firstHashAbove,
      ho.readHash_eq hlt (ho.apart.root_not_compacted hroot)]
    rfl
  | cons entry front ih =>
    obtain ⟨m, h1, h2, h3⟩ := hfront entry List.mem_cons_self
    have hdiv : j / 2 ^ (m - h) / 2 ^ (k - m) = j / 2 ^ (k - h) := by
      rw [Nat.div_div_eq_div_mul, ← pow_add]
      congr 2
      omega
    have hgone : l.isCompacted (nodePos m (j / 2 ^ (m - h))) = true :=
      ho.apart.isCompacted_nodePos_iff.2 ⟨k, h2, hdiv.symm ▸ hroot⟩
    have hmlt := nodePos_le_of_div_eq h2.le hdiv
    rw [List.cons_append, TxHashSetSegmenter.firstHashAbove, h3, ho.hash _ (by omega), hgone,
      if_pos rfl]
    exact ih fun e he => hfront e (List.mem_cons_of_mem _ he)

/-- **A segment of which nothing is there.** -/
theorem buildSegment_root (ho : r.Offers G serialized l full leaves) (hid : id.Block h i)
    (hn : leaves.length < 2 ^ 63) (hblock : 2 ^ h * (i + 1) ≤ leaves.length) {k : ℕ} (hk : h < k)
    (hroot : nodePos k (i / 2 ^ (k - h)) ∈ l.prunedRoots) :
    ∃ proof : SegmentProof,
      TxHashSetSegmenter.buildSegment G r (leafPos leaves.length) id =
        pure ((⟨[(nodePos k (i / 2 ^ (k - h)), entryAt full (nodePos k (i / 2 ^ (k - h))))], []⟩ :
          SegmentParts α).toSegment id proof) ∧
      proof.reconstructRoot G (leafPos leaves.length) (leafPos (2 ^ h * i)) (nodePos h i)
        (entryAt full (nodePos k (i / 2 ^ (k - h)))) (nodePos k (i / 2 ^ (k - h)) + 1) =
          some (Merkle.root (combine G) (entryAt full) (rangeTree leaves.length)) := by
  have hcount := countLeaves_leafPos hn
  have hmem := @mem_positions_full _ _ _ _ hid hn hblock
  have htop := nodePos_lt_leafPos_iff.2 hblock
  have hlt := ho.roots_lt _ hroot
  have hgone : ∀ p ∈ positions id (leafPos leaves.length), l.isCompacted p = true := by
    intro p hp
    obtain ⟨j, hj⟩ := exists_nodePos p
    have hbelow := hmem.1 hp
    rw [hj] at hbelow ⊢
    obtain ⟨h1, h2⟩ := below_iff.1 hbelow
    exact ho.apart.isCompacted_below h1 h2 (ho.apart.isCompacted_nodePos_iff.2 ⟨k, hk, hroot⟩)
  obtain ⟨proof, hproof, hreconstruct⟩ := SegmentProof.generate_node r.readHash
    ho.range (h := h) (j := i) (by rwa [List.length_map])
    (.above hk (by rwa [List.length_map]))
    (fun entry hentry hle => by
      rw [List.length_map] at hentry
      exact ho.read_siblings hk.le rfl (ho.apart.root_not_compacted hroot) hentry hle)
    (by
      rw [List.length_map]
      exact ho.readsPeaks)
  rw [List.length_map] at hproof hreconstruct
  refine ⟨proof, ?_, hreconstruct⟩
  rw [ho.buildSegment_eq]
  · dsimp only
    rw [offered_eq_nil hgone]
    dsimp only
    rw [List.isEmpty_nil, List.isEmpty_nil, Bool.true_and, if_pos rfl,
      hid.getPositionRange_full (hcount.symm ▸ hblock), ho.firstHashAbove_eq hk hroot, pure_bind,
      Option.map_some, hproof, pure_bind, Option.toList_some, List.nil_append]
  · rw [hid.getSegmentUnprunedSize_full (hcount.symm ▸ hblock)]
    exact (Nat.two_pow_pos _).ne'
  · intro p hp
    have := (hmem.1 hp).2
    omega

/-- **The last segment**, which is no tree. -/
theorem buildSegment_last (ho : r.Offers G serialized l full leaves) (hid : id.Block h i)
    (hn : leaves.length < 2 ^ 63) (hfirst : 2 ^ h * i < leaves.length)
    (hlast : leaves.length < 2 ^ h * (i + 1)) {front back : List (ℕ × ℕ)} {p : ℕ × ℕ}
    (hsplit : rangePeaks leaves.length = front ++ p :: back) (hp : 2 ^ p.1 * p.2 = 2 ^ h * i) :
    ∃ proof : SegmentProof,
      TxHashSetSegmenter.buildSegment G r (leafPos leaves.length) id =
        pure ((r.offered l full leaves (positions id (leafPos leaves.length))).toSegment id proof) ∧
      proof.reconstructRoot G (leafPos leaves.length) (leafPos (2 ^ h * i))
        (leafPos leaves.length - 1)
        (Merkle.root (combine G) (entryAt full) (bagTree (leafPos leaves.length) p back))
        (leafPos leaves.length - 1 + 1) =
          some (Merkle.root (combine G) (entryAt full) (rangeTree leaves.length)) := by
  have hcount := countLeaves_leafPos hn
  have hmem := @mem_positions_last _ _ _ _ hid hn hfirst hlast
  obtain ⟨proof, hproof, hreconstruct⟩ := SegmentProof.generate_tail r.readHash
    ho.range (by rwa [List.length_map])
    (by
      rw [List.length_map]
      exact ho.readsPeaks) (leafPos leaves.length - 1 + 1)
  rw [List.length_map, hp] at hproof hreconstruct
  refine ⟨proof, ?_, hreconstruct⟩
  rw [ho.buildSegment_eq]
  · dsimp only
    rw [hid.getPositionRange_last (hcount.symm ▸ hfirst) (hcount.symm ▸ hlast),
      SegmentProof.familyBranch_last, TxHashSetSegmenter.firstHashAbove, ite_self, pure_bind,
      Option.map_none, hproof, pure_bind, Option.toList_none, List.append_nil]
  · rw [hid.getSegmentUnprunedSize_last (hcount.symm ▸ hfirst) (hcount.symm ▸ hlast), hcount]
    omega
  · exact fun p hp => (hmem.1 hp).2

/-! ### Checking it -/

variable {s : Segment α}

/-- A node without a leaf that is needed is not needed. -/
theorem isRequiredByBitmap_of_not_required {bits : BitmapAccumulator} (hn : leaves.length < 2 ^ 63)
    {j : ℕ} (hnot : ∀ a, a / 2 ^ h = j →
      Segment.leafRequired (some bits) (leafPos a) (leafPos leaves.length) = false) :
    isRequiredByBitmap bits (Index.ofPosition (nodePos h j)) (leafPos leaves.length) = false := by
  rw [← Bool.not_eq_true, isRequiredByBitmap_nodePos_iff hn]
  rintro ⟨a, -, hdiv, hbit⟩
  have hleaf := hnot a hdiv
  rw [Segment.leafRequired, isLeafRequiredByBitmap_leafPos bits hn, requiredAt, hbit,
    Bool.true_or, Bool.true_or] at hleaf
  cases hleaf

/-- **A full segment of which something is there** has the hash of its tree. -/
theorem firstUnprunedParent_nodes (ho : r.Offers G serialized l full leaves)
    (hm : r.Matches leaves.length bitmap) (hn : leaves.length < 2 ^ 63) (hid : s.id.Block h i)
    (hs : s.Deserialized) (hpos : 1 ≤ h) (hblock : 2 ^ h * (i + 1) ≤ leaves.length)
    (hthere : l.isCompacted (nodePos h i) = false)
    (hhas : s.Has l full leaves bitmap.isSome h i) :
    s.firstUnprunedParent G serialized (leafPos leaves.length) bitmap =
      some (entryAt full (nodePos h i), nodePos h i + 1) := by
  have hblock' : 2 ^ h * (i + 1) ≤ countLeaves (leafPos leaves.length) := by
    rwa [countLeaves_leafPos hn]
  rw [Segment.firstUnprunedParent.eq_def, Segment.root_full hid hs hblock',
    hid.getPositionRange_full hblock']
  rcases Segment.required_or_not_required bitmap h i (leafPos leaves.length) with hneeded | hnot
  · rw [Segment.subtreeHash_of_required ho hm hn hblock hhas hneeded]
    rfl
  · rw [Segment.subtreeHash_of_not_required hnot]
    obtain ⟨bits, rfl⟩ := Option.isSome_iff_exists.1 (Segment.isSome_of_not_required hnot)
    have hprovided := hhas.hash rfl h i hpos le_rfl
      (by rw [Nat.sub_self, pow_zero, Nat.div_one]) hthere
    have hjoin : (some (none : Option Hash)).join = none := rfl
    rw [hjoin]
    dsimp only
    rw [if_neg (not_not.2 (hid.getSegmentUnprunedSize_full hblock')),
      isRequiredByBitmap_of_not_required hn hnot, if_neg Bool.false_ne_true, hprovided]

/-- The first hash above that is not below a needed node is the one that was sent. -/
theorem firstUnprunedAbove_eq {bits : BitmapAccumulator} {mmrSize k j : ℕ} (hk : h < k)
    (hlt : nodePos k (j / 2 ^ (k - h)) < mmrSize) {hash : Hash}
    (hnot : ∀ m, h < m → m ≤ k →
      isRequiredByBitmap bits (Index.ofPosition (nodePos m (j / 2 ^ (m - h)))) mmrSize = false)
    (hother : ∀ m, h < m → m < k →
      s.getProvidedStoredHash (nodePos m (j / 2 ^ (m - h))) = none)
    (hroot : s.getProvidedStoredHash (nodePos k (j / 2 ^ (k - h))) = some hash) :
    s.firstUnprunedAbove mmrSize bits (familyBranch (nodePos h j) mmrSize) =
      some (hash, nodePos k (j / 2 ^ (k - h)) + 1) := by
  have hle := nodePos_le_of_div_eq hk.le (rfl : j / 2 ^ (k - h) = _)
  obtain ⟨front, other, back, heq, hfront⟩ := exists_familyBranchFrom_eq hk hlt
    (show mmrSize ≤ nodePos h j + mmrSize by omega)
  rw [familyBranch, if_neg (by omega), Index.ofPosition_nodePos, heq]
  clear heq
  induction front with
  | nil =>
    rw [List.nil_append, Segment.firstUnprunedAbove, hnot k hk le_rfl,
      if_neg Bool.false_ne_true, hroot]
  | cons entry front ih =>
    obtain ⟨m, h1, h2, h3⟩ := hfront entry List.mem_cons_self
    obtain ⟨parentPos, siblingPos⟩ := entry
    dsimp only at h3
    rw [List.cons_append, Segment.firstUnprunedAbove, h3, hnot m h1 h2.le,
      if_neg Bool.false_ne_true, hother m h1 h2]
    exact ih fun e he => hfront e (List.mem_cons_of_mem _ he)

/-- **A segment of which nothing is there** has the root that it is missing with. -/
theorem firstUnprunedParent_root (ho : r.Offers G serialized l full leaves)
    (hm : r.Matches leaves.length bitmap) (hn : leaves.length < 2 ^ 63) (hid : s.id.Block h i)
    (hs : s.Deserialized) (hblock : 2 ^ h * (i + 1) ≤ leaves.length) {k : ℕ} (hk : h < k)
    (hroot : nodePos k (i / 2 ^ (k - h)) ∈ l.prunedRoots) (hash : Hash)
    (hprovided : ∀ p, s.getProvidedStoredHash p =
      if p = nodePos k (i / 2 ^ (k - h)) then some hash else none) :
    s.firstUnprunedParent G serialized (leafPos leaves.length) bitmap =
      some (hash, nodePos k (i / 2 ^ (k - h)) + 1) := by
  have hblock' : 2 ^ h * (i + 1) ≤ countLeaves (leafPos leaves.length) := by
    rwa [countLeaves_leafPos hn]
  have hrootlt := ho.roots_lt _ hroot
  -- every leaf of the segment is under the root, so none is needed
  have hunder : ∀ m, h ≤ m → m ≤ k → ∀ a, a / 2 ^ m = i / 2 ^ (m - h) →
      nodePos k (a / 2 ^ k) ∈ l.prunedRoots := by
    intro m h1 h2 a ha
    have hdiv : a / 2 ^ k = i / 2 ^ (k - h) := by
      rw [show k = m + (k - m) by omega, pow_add, ← Nat.div_div_eq_div_mul, ha,
        Nat.div_div_eq_div_mul, ← pow_add]
      congr 2
      omega
    rwa [hdiv]
  cases hm with
  | plain hplain =>
    rw [ho.plain hplain] at hroot
    cases hroot
  | @pruned bits hprunable hbits =>
    have hm := Matches.pruned hprunable hbits
    have hnode : ∀ m, h ≤ m → m ≤ k → isRequiredByBitmap bits
        (Index.ofPosition (nodePos m (i / 2 ^ (m - h)))) (leafPos leaves.length) = false := by
      intro m h1 h2
      rw [← Bool.not_eq_true, isRequiredByBitmap_nodePos_iff hn]
      rintro ⟨a, ha, hdiv, hbit⟩
      rw [ho.not_contains_of_root hm ha (by omega) (hunder m h1 h2 a hdiv)] at hbit
      cases hbit
    have hnot : ∀ a, a / 2 ^ h = i →
        Segment.leafRequired (some bits) (leafPos a) (leafPos leaves.length) = false := by
      intro a ha
      have halt : a < leaves.length := by
        have := (div_two_pow_eq_iff.1 ha).2
        omega
      rw [← Bool.not_eq_true]
      intro hrequired
      have hthere := ho.of_leafRequired hm hn halt hrequired
      rw [ho.apart.isCompacted_leaf_iff.2 ⟨k, by omega, hunder h le_rfl hk.le a (by
        rw [ha, Nat.sub_self, pow_zero, Nat.div_one])⟩] at hthere
      cases hthere
    have hjoin : (some (none : Option Hash)).join = none := rfl
    have hself := hnode h le_rfl hk.le
    rw [Nat.sub_self, pow_zero, Nat.div_one] at hself
    rw [Segment.firstUnprunedParent.eq_def, Segment.root_full hid hs hblock',
      hid.getPositionRange_full hblock', Segment.subtreeHash_of_not_required hnot, hjoin]
    dsimp only
    rw [if_neg (not_not.2 (hid.getSegmentUnprunedSize_full hblock')), hself,
      if_neg Bool.false_ne_true, hprovided,
      if_neg fun heq => hk.ne (nodePos_inj heq).1]
    dsimp only
    rw [firstUnprunedAbove_eq hk hrootlt (fun m h1 h2 => hnode m h1.le h2) (fun m _ h2 => ?_)
      (by rw [hprovided, if_pos rfl])]
    rw [hprovided, if_neg fun heq => h2.ne (nodePos_inj heq).1]

/-- The hash that the machine has for a peak of the last segment. -/
theorem peakHash_eq (ho : r.Offers G serialized l full leaves) (hm : r.Matches leaves.length bitmap)
    (hn : leaves.length < 2 ^ 63) {q : ℕ × ℕ} (hq : q ∈ rangePeaks leaves.length)
    (hhas : s.Has l full leaves bitmap.isSome q.1 q.2) :
    ∃ entry, Segment.subtreeHash G serialized s (leafPos leaves.length) bitmap q.1 q.2 =
        some entry ∧
      s.peakHash bitmap.isSome q entry =
        some (Merkle.root (combine G) (entryAt full) (completeTree q.1 q.2)) := by
  have hle := ((consecutive_rangePeaks _).mem hq).2
  have hentry := SegmentProof.entryAt_nodePos ho.range (h := q.1) (j := q.2)
    (by rwa [List.length_map])
  rw [← hentry]
  rcases Segment.required_or_not_required bitmap q.1 q.2 (leafPos leaves.length) with
    hneeded | hnot
  · refine ⟨_, Segment.subtreeHash_of_required ho hm hn hle hhas hneeded, ?_⟩
    rw [Segment.peakHash, Option.isNone_some, Bool.false_and, if_neg Bool.false_ne_true]
  · refine ⟨none, Segment.subtreeHash_of_not_required hnot, ?_⟩
    obtain ⟨bits, rfl⟩ := Option.isSome_iff_exists.1 (Segment.isSome_of_not_required hnot)
    have hpos : 1 ≤ q.1 := by
      refine (pos_or_requiredAt hq bits.contains).resolve_right fun hrequired => ?_
      have hself := hnot (2 ^ q.1 * q.2) (Nat.mul_div_cancel_left _ (Nat.two_pow_pos _))
      rw [Segment.leafRequired, isLeafRequiredByBitmap_leafPos bits hn, hrequired] at hself
      cases hself
    rw [Segment.peakHash, Option.isNone_none, Bool.true_and, Option.isSome_some, if_pos rfl]
    exact hhas.hash rfl q.1 q.2 hpos le_rfl (by rw [Nat.sub_self, pow_zero, Nat.div_one])
      (ho.peak_not_compacted hq)

/-- The bag of the peaks of the last segment. -/
theorem bagEntries_eq {bits : Option BitmapAccumulator} {mmrSize : ℕ} {val : ℕ → Hash}
    (q : ℕ × ℕ) (qs : List (ℕ × ℕ))
    (hpeaks : ∀ p ∈ q :: qs, ∃ entry,
      Segment.subtreeHash G serialized s mmrSize bits p.1 p.2 = some entry ∧
      s.peakHash bits.isSome p entry =
        some (Merkle.root (combine G) val (completeTree p.1 p.2))) :
    (Segment.peakEntries G serialized s mmrSize bits (q :: qs)).bind
        (Segment.bagEntries G s mmrSize bits.isSome (q :: qs)) =
      some (some (Merkle.root (combine G) val (bagTree mmrSize q qs))) := by
  induction qs generalizing q with
  | nil =>
    obtain ⟨entry, hentry, hhash⟩ := hpeaks q List.mem_cons_self
    rw [Segment.peakEntries, hentry, Option.bind_some, Segment.peakEntries, Option.bind_some,
      Option.bind_some, Segment.bagEntries, Segment.bagEntries, Option.bind_some, hhash]
    · rfl
    · intro _ _ _ _ hnil
      exact absurd hnil.symm (List.cons_ne_nil _ _)
  | cons q' qs ih =>
    obtain ⟨entry, hentry, hhash⟩ := hpeaks q List.mem_cons_self
    have hrest := ih q' fun p hp => hpeaks p (List.mem_cons_of_mem _ hp)
    obtain ⟨entries, hentries, hbag⟩ := Option.bind_eq_some_iff.1 hrest
    rw [Segment.peakEntries, hentry, Option.bind_some, hentries, Option.bind_some,
      Option.bind_some, Segment.bagEntries, hbag, Option.bind_some, hhash]
    rfl

/-- **The last segment** has the bag of its peaks. -/
theorem firstUnprunedParent_last (ho : r.Offers G serialized l full leaves)
    (hm : r.Matches leaves.length bitmap) (hn : leaves.length < 2 ^ 63) (hid : s.id.Block h i)
    (hs : s.Deserialized) (hfirst : 2 ^ h * i < leaves.length)
    (hlast : leaves.length < 2 ^ h * (i + 1)) {front back : List (ℕ × ℕ)} {p : ℕ × ℕ}
    (hsplit : rangePeaks leaves.length = front ++ p :: back)
    (hpeaks : peaks h leaves.length = p :: back)
    (hhas : ∀ q ∈ p :: back, s.Has l full leaves bitmap.isSome q.1 q.2) :
    s.firstUnprunedParent G serialized (leafPos leaves.length) bitmap =
      some (Merkle.root (combine G) (entryAt full) (bagTree (leafPos leaves.length) p back),
        leafPos leaves.length - 1 + 1) := by
  have hcount := countLeaves_leafPos hn
  have hbag := @bagEntries_eq _ G serialized s bitmap (leafPos leaves.length) (entryAt full)
    p back fun q hq =>
      ho.peakHash_eq hm hn (by
        rw [hsplit]
        exact List.mem_append_right _ hq) (hhas q hq)
  rw [Segment.firstUnprunedParent.eq_def, Segment.root_last hid hs hcount hfirst hlast, hpeaks,
    hbag, hid.getPositionRange_last (hcount.symm ▸ hfirst) (hcount.symm ▸ hlast)]
  rfl

/-- **Every segment of the range is built**, and its proof leads to the root of the range. -/
theorem buildSegment_ok (ho : r.Offers G serialized l full leaves)
    (hm : r.Matches leaves.length bitmap) (hn : leaves.length < 2 ^ 63) (hid : id.Block h i)
    (hpos : 1 ≤ h) (hfirst : 2 ^ h * i < leaves.length) :
    ∃ s hash unprunedPos,
      TxHashSetSegmenter.buildSegment G r (leafPos leaves.length) id = pure s ∧
      r.Serves l full leaves id h i s ∧ s.id = id ∧
      s.firstUnprunedParent G serialized (leafPos leaves.length) bitmap =
        some (hash, unprunedPos) ∧
      s.proof.reconstructRoot G (leafPos leaves.length)
        (id.getPositionRange (leafPos leaves.length)).1
        (id.getPositionRange (leafPos leaves.length)).2 hash unprunedPos =
          some (Merkle.root (combine G) (entryAt full) (rangeTree leaves.length)) := by
  have hcount := countLeaves_leafPos hn
  have huse := hm.prunable_eq
  rcases Nat.lt_or_ge leaves.length (2 ^ h * (i + 1)) with hlast | hblock
  · obtain ⟨front, p, back, hsplit, hpeaks, hrun, hp⟩ := Segment.rangePeaks_last hfirst hlast
    obtain ⟨proof, hbuild, hreconstruct⟩ :=
      ho.buildSegment_last hid hn hfirst hlast hsplit hp
    have hserves : r.Serves l full leaves id h i _ := .nodes proof fun hle => by omega
    refine ⟨_, _, _, hbuild, hserves, rfl,
      ho.firstUnprunedParent_last hm hn hid hserves.deserialized hfirst hlast hsplit hpeaks ?_, ?_⟩
    · intro q hq
      rw [← huse]
      refine has_offered fun a h1 h2 => (mem_positions_last hid hn hfirst hlast).2 ⟨?_, ?_⟩
      · exact (leafPos_strictMono.monotone (hrun.mem hq).1).trans h1
      · exact lt_of_le_of_lt h2 (nodePos_lt_leafPos_iff.2 (hrun.mem hq).2)
    · rw [hid.getPositionRange_last (hcount.symm ▸ hfirst) (hcount.symm ▸ hlast)]
      exact hreconstruct
  · cases hgone : l.isCompacted (nodePos h i) with
    | false =>
      obtain ⟨proof, hbuild, hreconstruct⟩ := ho.buildSegment_nodes hid hn hpos hblock hgone
      have hserves : r.Serves l full leaves id h i _ := .nodes proof fun _ => hgone
      refine ⟨_, _, _, hbuild, hserves, rfl,
        ho.firstUnprunedParent_nodes hm hn hid hserves.deserialized hpos hblock hgone ?_, ?_⟩
      · rw [← huse]
        exact has_offered fun a h1 h2 => (mem_positions_full hid hn hblock).2 ⟨h1, h2⟩
      · rw [hid.getPositionRange_full (hcount.symm ▸ hblock)]
        exact hreconstruct
    | true =>
      obtain ⟨k, hk, hroot⟩ := ho.apart.isCompacted_nodePos_iff.1 hgone
      obtain ⟨proof, hbuild, hreconstruct⟩ := ho.buildSegment_root hid hn hblock hk hroot
      have hserves : r.Serves l full leaves id h i _ := .root proof hk hroot
      refine ⟨_, _, _, hbuild, hserves, rfl,
        ho.firstUnprunedParent_root hm hn hid hserves.deserialized hblock hk hroot
          (entryAt full (nodePos k (i / 2 ^ (k - h)))) ?_, ?_⟩
      · intro p
        rw [SegmentParts.getProvidedStoredHash_toSegment, List.lookup_cons, List.lookup_nil]
        by_cases hp : p = nodePos k (i / 2 ^ (k - h))
        · rw [if_pos hp, beq_iff_eq.2 hp]
        · rw [if_neg hp, beq_false_of_ne hp]
      · rw [hid.getPositionRange_full (hcount.symm ▸ hblock)]
        exact hreconstruct

end Offers

end SegmentReaders

end GrinPlusPlus
