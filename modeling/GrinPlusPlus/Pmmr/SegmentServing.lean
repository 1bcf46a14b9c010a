import GrinPlusPlus.Lib.Subtrees
import GrinPlusPlus.Pmmr.CompactedRange
import GrinPlusPlus.Pmmr.SegmentProofs

/-!
# The segments that a peer serves

`TxHashSetSegmenter::BuildSegment`, over a range from which trees were pruned. Whatever is still
there of the positions of the segment is put into it: the data of a leaf, spent or not, and the
hash of an inner node. Where nothing is left the segment lies in a pruned tree, and the root of
that tree is sent in its place.

A node is missing when it is under a pruned root, so **siblings are missing together**, and a node
is missing with its parent unless the parent is the root
(`GrinPlusPlus.PruneList.Apart.isCompacted_nodePos_iff`). That is all that is needed to see that
the siblings of a proof can be read, and that what the other side looks up was sent.
-/

namespace GrinPlusPlus

open PostOrder Mountain MMRHashUtil MMRUtil Compact

/-! ### Building a segment -/

/-- What a segment is built from. -/
structure SegmentReaders (α : Type) where
  /-- Whether the range can be pruned. -/
  prunable : Bool
  /-- The leaf at an index. -/
  readLeaf : ℕ → Option α
  /-- The data at an index, spent or not. -/
  readRawLeaf : ℕ → Option α
  /-- Whether a leaf is unspent. -/
  isUnpruned : ℕ → Bool
  /-- The hash at a position. -/
  readHash : ℕ → Reading Hash

/-- The positions and values that were collected, hashes and leaves. -/
structure SegmentParts (α : Type) where
  /-- `hashPositions` and `hashes`. -/
  hashes : List (ℕ × Hash)
  /-- `leafPositions` and `leaves`. -/
  leaves : List (ℕ × α)

/-- The segment that they make. -/
def SegmentParts.toSegment {α : Type} (parts : SegmentParts α) (identifier : SegmentIdentifier)
    (proof : SegmentProof) : Segment α where
  id := identifier
  hashPos := parts.hashes.map Prod.fst
  hashes := parts.hashes.map Prod.snd
  leafPos := parts.leaves.map Prod.fst
  leaves := parts.leaves.map Prod.snd
  proof := proof

namespace TxHashSetSegmenter

variable {α : Type} (G : Global) (r : SegmentReaders α)

/-- `TxHashSetSegmenter::RequiresLeafData`. -/
def requiresLeafData (position mmrSize : ℕ) : Bool :=
  let leafIndex := Index.calculateLeafIndex position
  if r.isUnpruned leafIndex || position + 1 == mmrSize then true
  else
    let siblingLeafIndex :=
      if isLeftSibling position then leafIndex + 1
      else if leafIndex = 0 then leafIndex else leafIndex - 1
    decide (leafPosition siblingLeafIndex < mmrSize) && r.isUnpruned siblingLeafIndex

/-- The leaf at a position, in `TxHashSetSegmenter::BuildSegment`. -/
def leafAt (position : ℕ) : Option α :=
  if Index.calculateHeight position = 0 then
    (if r.prunable then r.readRawLeaf else r.readLeaf) (Index.calculateLeafIndex position)
  else none

/-- The loop of `TxHashSetSegmenter::BuildSegment` over the positions. -/
def collectNodes (mmrSize : ℕ) : List ℕ → SegmentParts α → Reading (SegmentParts α)
  | [], parts => pure parts
  | position :: positions, parts =>
    match leafAt r position with
    | some leaf =>
      collectNodes mmrSize positions { parts with leaves := parts.leaves ++ [(position, leaf)] }
    | none =>
      if Index.calculateHeight position = 0 ∧
          (r.prunable = false ∨ requiresLeafData r position mmrSize = true) then failure
      else if r.prunable then do
        let hash ← OptionT.lift (r.readHash position).run
        collectNodes mmrSize positions
          { parts with hashes := parts.hashes ++ (hash.map (position, ·)).toList }
      else collectNodes mmrSize positions parts

/-- The first parent whose hash can be read. -/
def firstHashAbove : List (ℕ × ℕ) → Reading (Option (ℕ × Hash))
  | [] => pure none
  | (parentPos, _) :: branch => do
    match ← OptionT.lift (r.readHash parentPos).run with
    | some hash => pure (some (parentPos, hash))
    | none => firstHashAbove branch

/-- `TxHashSetSegmenter::BuildSegment`. -/
def buildSegment (mmrSize : ℕ) (identifier : SegmentIdentifier) : Reading (Segment α) :=
  if identifier.getSegmentUnprunedSize mmrSize = 0 then failure
  else do
    let posRange := identifier.getPositionRange mmrSize
    let parts ← collectNodes r mmrSize
      (List.range' posRange.1 (posRange.2 - posRange.1 + 1)) ⟨[], []⟩
    let above ←
      if parts.leaves.isEmpty && parts.hashes.isEmpty then
        firstHashAbove r (familyBranch posRange.2 mmrSize)
      else pure none
    let proof ← SegmentProof.generate G r.readHash mmrSize posRange.1 posRange.2
      (above.map fun entry => entry.1 + 1)
    pure (({ parts with hashes := parts.hashes ++ above.toList } : SegmentParts α).toSegment
      identifier proof)

end TxHashSetSegmenter

/-- What `TxHashSetSegmenter::OutputSegment` and `TxHashSetSegmenter::RangeProofSegment` read. Which
leaves are unspent is asked of the outputs in both. -/
def PruneableFiles.segmentReaders {α : Type} (isUnpruned : ℕ → Bool) (f : PruneableFiles α) :
    SegmentReaders α where
  prunable := true
  readLeaf i := f.getAt i
  readRawLeaf i := f.getDataAt i
  isUnpruned := isUnpruned
  readHash p := OptionT.mk (f.getHashAt p)

/-- What `TxHashSetSegmenter::KernelSegment` reads. -/
def KernelFiles.segmentReaders (f : KernelFiles) : SegmentReaders TransactionKernel where
  prunable := false
  readLeaf i := f.getKernelAt i
  readRawLeaf i := f.getKernelAt i
  isUnpruned _ := false
  readHash p := OptionT.mk (f.getHashAt p)

namespace TxHashSetSegmenter

variable (G : Global) (t : TxHashSet) (identifier : SegmentIdentifier)

/-- `TxHashSetSegmenter::KernelSegment`. -/
def kernelSegment : Reading (Segment TransactionKernel) :=
  let kernels := t.kernelMMR.current
  buildSegment G kernels.segmentReaders kernels.getSize identifier

/-- `TxHashSetSegmenter::OutputSegment`. -/
def outputSegment : Reading (Segment OutputIdentifier) :=
  let outputs := t.outputPMMR.current
  buildSegment G (outputs.segmentReaders fun i => outputs.isUnpruned i) outputs.getSize identifier

/-- `TxHashSetSegmenter::RangeProofSegment`. -/
def rangeProofSegment : Reading (Segment RangeProof) :=
  let rangeProofs := t.rangeProofPMMR.current
  buildSegment G (rangeProofs.segmentReaders fun i => t.outputPMMR.current.isUnpruned i)
    rangeProofs.getSize identifier

end TxHashSetSegmenter

/-! ### What is missing, by addresses -/

namespace PruneList

variable {l : PruneList}

/-- **A node is missing** when a node above it is a pruned root. -/
theorem Apart.isCompacted_nodePos_iff (hl : l.Apart) {h j : ℕ} :
    l.isCompacted (nodePos h j) = true ↔
      ∃ k, h < k ∧ nodePos k (j / 2 ^ (k - h)) ∈ l.prunedRoots := by
  rw [hl.isCompacted_iff]
  constructor
  · rintro ⟨root, hroot, hunder, hne⟩
    obtain ⟨i, hi⟩ := exists_nodePos root
    rw [hi] at hroot hunder hne
    obtain ⟨hle, hdiv⟩ := below_iff.1 (under_nodePos_iff.1 hunder)
    refine ⟨height root, lt_of_le_of_ne hle fun heq => hne ?_, by rwa [hdiv]⟩
    rw [← hdiv, ← heq, Nat.sub_self, pow_zero, Nat.div_one]
  · rintro ⟨k, hk, hroot⟩
    refine ⟨_, hroot, under_nodePos_iff.2 (below_iff.2 ⟨hk.le, rfl⟩), fun heq => ?_⟩
    exact hk.ne (nodePos_inj heq).1

/-- The same for a leaf. -/
theorem Apart.isCompacted_leaf_iff (hl : l.Apart) {i : ℕ} :
    l.isCompacted (leafPos i) = true ↔ ∃ k, 0 < k ∧ nodePos k (i / 2 ^ k) ∈ l.prunedRoots := by
  rw [← nodePos_zero]
  exact hl.isCompacted_nodePos_iff

/-- What is below a missing node is missing. -/
theorem Apart.isCompacted_below (hl : l.Apart) {h j k i : ℕ} (hk : h ≤ k)
    (hdiv : j / 2 ^ (k - h) = i) (hgone : l.isCompacted (nodePos k i) = true) :
    l.isCompacted (nodePos h j) = true := by
  obtain ⟨k', hk', hroot⟩ := hl.isCompacted_nodePos_iff.1 hgone
  refine hl.isCompacted_nodePos_iff.2 ⟨k', hk.trans_lt hk', ?_⟩
  rw [← hdiv, Nat.div_div_eq_div_mul, ← pow_add] at hroot
  rwa [show k' - h = k - h + (k' - k) by omega]

/-- **Siblings** are missing together. -/
theorem Apart.isCompacted_sibling (hl : l.Apart) {h i j : ℕ} (hij : i / 2 = j / 2) :
    l.isCompacted (nodePos h i) = l.isCompacted (nodePos h j) := by
  rw [Bool.eq_iff_iff, hl.isCompacted_nodePos_iff, hl.isCompacted_nodePos_iff]
  refine exists_congr fun k => and_congr_right fun hk => ?_
  rw [div_above hk, div_above hk, hij]

/-- A pruned root is there. -/
theorem Apart.root_not_compacted (hl : l.Apart) {root : ℕ} (hroot : root ∈ l.prunedRoots) :
    l.isCompacted root = false := by
  rw [← Bool.not_eq_true, hl.isCompacted_iff]
  rintro ⟨r, hr, hunder, hne⟩
  exact hne (hl root hroot r hr hunder)

/-- A child of a node that is there is there, unless the node is a pruned root. -/
theorem Apart.child_not_compacted (hl : l.Apart) {h j : ℕ}
    (hgone : l.isCompacted (nodePos (h + 1) (j / 2)) = false)
    (hroot : nodePos (h + 1) (j / 2) ∉ l.prunedRoots) : l.isCompacted (nodePos h j) = false := by
  rw [← Bool.not_eq_true, hl.isCompacted_nodePos_iff]
  rintro ⟨k, hk, hmem⟩
  rw [div_above hk] at hmem
  rcases (show h + 1 ≤ k from hk).eq_or_lt with rfl | hlt
  · rw [Nat.sub_self, pow_zero, Nat.div_one] at hmem
    exact hroot hmem
  · rw [hl.isCompacted_nodePos_iff.2 ⟨k, hlt, hmem⟩] at hgone
    cases hgone

end PruneList

/-! ### The leaves that have to be there -/

/-- A leaf is asked for when it is unspent, when its sibling is, or when it is the last node. -/
def requiredAt (unspent : ℕ → Bool) (n i : ℕ) : Bool :=
  unspent i || leafPos i + 1 == leafPos n || (decide (sibling i < n) && unspent (sibling i))

/-- Only a leaf without a sibling stands at the end. -/
theorem succ_eq_of_leafPos_add_one {i n : ℕ} (h : leafPos i + 1 = leafPos n) :
    i + 1 = n ∧ i % 2 = 0 := by
  have hlt : i < n := leafPos_strictMono.lt_iff_lt.1 (by omega)
  have hsucc : i + 1 = n := by
    by_contra hne
    have h1 := leafPos_strictMono (show i + 1 < n by omega)
    have h2 := leafPos_lt_succ i
    omega
  refine ⟨hsucc, ?_⟩
  rcases Nat.even_or_odd' i with ⟨m, rfl | rfl⟩
  · omega
  · have hheight := height_nodePos_succ_odd 0 m
    rw [nodePos_zero, h, height_leafPos] at hheight
    omega

variable {unspent unspent' : ℕ → Bool} {n i : ℕ}

theorem requiredAt_congr (h : ∀ i < n, unspent i = unspent' i) (hi : i < n) :
    requiredAt unspent n i = requiredAt unspent' n i := by
  rw [requiredAt, requiredAt, h i hi]
  by_cases hs : sibling i < n
  · rw [h _ hs]
  · rw [decide_eq_false hs, Bool.false_and, Bool.false_and]

theorem sibling_sibling (i : ℕ) : sibling (sibling i) = i := by
  rw [sibling, sibling]
  split <;> split <;> omega

/-- **Siblings are asked for together.** -/
theorem requiredAt_sibling (hi : i < n) (hs : sibling i < n) :
    requiredAt unspent n (sibling i) = requiredAt unspent n i := by
  have hnot : ∀ m, m < n → sibling m < n → (leafPos m + 1 == leafPos n) = false := by
    intro m hm hsm
    rw [beq_eq_false_iff_ne]
    intro heq
    obtain ⟨h1, h2⟩ := succ_eq_of_leafPos_add_one heq
    rw [sibling, if_pos h2] at hsm
    omega
  rw [requiredAt, requiredAt, hnot _ hi hs, hnot _ hs (by rwa [sibling_sibling]), sibling_sibling,
    decide_eq_true hs, decide_eq_true hi, Bool.or_false, Bool.or_false, Bool.true_and,
    Bool.true_and, Bool.or_comm]

theorem siblingLeafIndex_eq (i : ℕ) :
    (if isLeftSibling (leafPos i) then i + 1 else if i = 0 then i else i - 1) = sibling i := by
  rw [← nodePos_zero, isLeftSibling_nodePos, sibling]
  split
  · next h => rw [if_pos (of_decide_eq_true h)]
  · next h =>
    rw [decide_eq_true_eq] at h
    rw [if_neg h, if_neg (by omega)]

/-- What the receiver asks for. -/
theorem isLeafRequiredByBitmap_leafPos (bitmap : BitmapAccumulator) (hn : n < 2 ^ 63) (i : ℕ) :
    isLeafRequiredByBitmap bitmap (leafPos i) (leafPos n) = requiredAt bitmap.contains n i := by
  rw [isLeafRequiredByBitmap, calculateLeafIndex_leafPos, countLeaves_leafPos hn]
  dsimp only
  rw [siblingLeafIndex_eq, requiredAt]
  split
  · next h => rw [h, Bool.true_or]
  · next h => rw [Bool.eq_false_iff.2 h, Bool.false_or]

/-- What the sender must not miss. -/
theorem requiresLeafData_leafPos {α : Type} (r : SegmentReaders α) (n i : ℕ) :
    TxHashSetSegmenter.requiresLeafData r (leafPos i) (leafPos n) =
      requiredAt r.isUnpruned n i := by
  rw [TxHashSetSegmenter.requiresLeafData, calculateLeafIndex_leafPos]
  dsimp only
  rw [siblingLeafIndex_eq, leafPosition, requiredAt]
  simp only [leafPos_strictMono.lt_iff_lt]
  split
  · next h => rw [h, Bool.true_or]
  · next h => rw [Bool.eq_false_iff.2 h, Bool.false_or]

/-- **What is asked for is there.** -/
theorem PruneList.Apart.of_requiredAt {l : PruneList} (hl : l.Apart)
    (hlt : ∀ r ∈ l.prunedRoots, r < leafPos n)
    (hunspent : ∀ i < n, unspent i = true → l.isCompacted (leafPos i) = false)
    (hi : i < n) (hrequired : requiredAt unspent n i = true) :
    l.isCompacted (leafPos i) = false := by
  rw [requiredAt, Bool.or_eq_true, Bool.or_eq_true, Bool.and_eq_true, decide_eq_true_eq,
    beq_iff_eq] at hrequired
  rcases hrequired with (hi' | hlast) | ⟨hs, hs'⟩
  · exact hunspent i hi hi'
  · -- a tree with the last node below its root would reach behind the end
    rw [← Bool.not_eq_true, hl.isCompacted_iff]
    rintro ⟨r, hr, hunder, hne⟩
    have h1 := hlt r hr
    have h2 := hunder.2
    omega
  · have hboth := hl.isCompacted_sibling (h := 0) (sibling_div_two i)
    rw [nodePos_zero, nodePos_zero] at hboth
    rw [← hboth]
    exact hunspent _ hs hs'

/-! ### What a peer has to offer -/

/-- **A range that segments can be made of**: the trees of a prune list are missing from it, and no
leaf that is unspent. -/
structure SegmentReaders.Offers {α : Type} (G : Global) (serialized : α → List UInt8)
    (r : SegmentReaders α) (l : PruneList) (full : List Hash) (leaves : List α) : Prop where
  /-- The hashes are those of the leaves. -/
  range : IsRangeOf G full (leaves.map serialized)
  /-- The missing trees are apart. -/
  apart : l.Apart
  /-- The missing trees are inside of the range. -/
  roots_lt : ∀ root ∈ l.prunedRoots, root < PostOrder.leafPos leaves.length
  /-- The leaves that are not missing are read. -/
  leaf : ∀ i, (if r.prunable then r.readRawLeaf else r.readLeaf) i =
    if l.isCompacted (PostOrder.leafPos i) then none else leaves[i]?
  /-- The hashes that are not missing are read. -/
  hash : ∀ p < PostOrder.leafPos leaves.length,
    r.readHash p = if l.isCompacted p then failure else pure (entryAt full p)
  /-- An unspent leaf is not missing. -/
  unspent : ∀ i < leaves.length, r.isUnpruned i = true →
    l.isCompacted (PostOrder.leafPos i) = false
  /-- Only a range that can be pruned has something missing. -/
  plain : r.prunable = false → l = .empty

/-- The hash that is sent for a position. -/
def sentHash (prunable : Bool) (l : PruneList) (full : List Hash) (position : ℕ) : Option Hash :=
  if prunable = false ∨ height position = 0 ∨ l.isCompacted position = true then none
  else some (entryAt full position)

/-- The leaf that is sent for a position. -/
def sentLeaf {α : Type} (l : PruneList) (leaves : List α) (position : ℕ) : Option α :=
  if height position = 0 ∧ l.isCompacted position = false then
    leaves[Index.calculateLeafIndex position]?
  else none

namespace SegmentReaders.Offers

variable {α : Type} {G : Global} {serialized : α → List UInt8} {r : SegmentReaders α}
  {l : PruneList} {full : List Hash} {leaves : List α}

/-- What cannot be left out is not missing. -/
theorem of_requiresLeafData (h : r.Offers G serialized l full leaves) {i : ℕ}
    (hi : i < leaves.length) (hrequired : r.prunable = false ∨
      TxHashSetSegmenter.requiresLeafData r (PostOrder.leafPos i)
        (PostOrder.leafPos leaves.length) = true) :
    l.isCompacted (PostOrder.leafPos i) = false := by
  rcases hrequired with hplain | hrequired
  · rw [h.plain hplain, PruneList.empty_isCompacted]
  · rw [requiresLeafData_leafPos] at hrequired
    exact h.apart.of_requiredAt h.roots_lt h.unspent hi hrequired

theorem leafAt_eq (h : r.Offers G serialized l full leaves) (p : ℕ) :
    TxHashSetSegmenter.leafAt r p = sentLeaf l leaves p := by
  rw [TxHashSetSegmenter.leafAt, sentLeaf, Index.calculateHeight]
  by_cases hleaf : height p = 0
  · obtain ⟨i, hi⟩ := exists_nodePos p
    rw [hleaf, nodePos_zero] at hi
    rw [if_pos hleaf, hi, calculateLeafIndex_leafPos, h.leaf i, height_leafPos]
    cases l.isCompacted (PostOrder.leafPos i) with
    | false => rw [if_neg Bool.false_ne_true, if_pos ⟨rfl, rfl⟩]
    | true => rw [if_pos rfl, if_neg (by simp)]
  · rw [if_neg hleaf, if_neg (fun hand => hleaf hand.1)]

/-- A leaf that is missing may be left out. -/
theorem not_stuck (h : r.Offers G serialized l full leaves) {p : ℕ}
    (hp : p < PostOrder.leafPos leaves.length) (hnone : sentLeaf l leaves p = none) :
    ¬(height p = 0 ∧ (r.prunable = false ∨
      TxHashSetSegmenter.requiresLeafData r p (PostOrder.leafPos leaves.length) = true)) := by
  rintro ⟨hleaf, hrequired⟩
  obtain ⟨i, hi⟩ := exists_nodePos p
  rw [hleaf, nodePos_zero] at hi
  subst hi
  have hi := leafPos_strictMono.lt_iff_lt.1 hp
  rw [sentLeaf, if_pos ⟨hleaf, h.of_requiresLeafData hi hrequired⟩, calculateLeafIndex_leafPos,
    List.getElem?_eq_getElem hi] at hnone
  cases hnone

/-- What is read of the hash of a node that is no leaf. -/
theorem lift_readHash (h : r.Offers G serialized l full leaves) {p : ℕ}
    (hp : p < PostOrder.leafPos leaves.length) (hnone : sentLeaf l leaves p = none)
    (hprunable : r.prunable = true) :
    (OptionT.lift (r.readHash p).run : Reading (Option Hash)) =
      pure (sentHash r.prunable l full p) := by
  have hgone : height p = 0 → l.isCompacted p = true := by
    intro hleaf
    by_contra hnot
    rw [Bool.not_eq_true] at hnot
    rw [sentLeaf, if_pos ⟨hleaf, hnot⟩] at hnone
    obtain ⟨i, hi⟩ := exists_nodePos p
    rw [hleaf, nodePos_zero] at hi
    rw [hi, calculateLeafIndex_leafPos, List.getElem?_eq_none_iff] at hnone
    rw [hi] at hp
    exact absurd (leafPos_strictMono.lt_iff_lt.1 hp) (Nat.not_lt_of_le hnone)
  rw [h.hash p hp, sentHash, hprunable]
  split
  · next hgone => rw [if_pos (.inr (.inr hgone))]; rfl
  · next hthere =>
    rw [if_neg]
    · rfl
    · rintro (hfalse | hleaf | hgone')
      · cases hfalse
      · exact hthere (hgone hleaf)
      · exact hthere hgone'

/-- **The loop over the positions** collects what is not missing, and does not fail. -/
theorem collectNodes_eq (h : r.Offers G serialized l full leaves) {positions : List ℕ}
    (hlt : ∀ p ∈ positions, p < PostOrder.leafPos leaves.length) (parts : SegmentParts α) :
    TxHashSetSegmenter.collectNodes r (PostOrder.leafPos leaves.length) positions parts =
      pure ⟨parts.hashes ++ tabulate (sentHash r.prunable l full) positions,
        parts.leaves ++ tabulate (sentLeaf l leaves) positions⟩ := by
  induction positions generalizing parts with
  | nil =>
    rw [TxHashSetSegmenter.collectNodes, tabulate, tabulate, List.filterMap_nil,
      List.filterMap_nil, List.append_nil, List.append_nil]
  | cons p positions ih =>
    have hp := hlt p List.mem_cons_self
    have hrest := ih fun q hq => hlt q (List.mem_cons_of_mem _ hq)
    rw [TxHashSetSegmenter.collectNodes.eq_def, tabulate_cons, tabulate_cons]
    dsimp only
    rw [h.leafAt_eq]
    cases hleaf : sentLeaf l leaves p with
    | some leaf =>
      have hheight : height p = 0 := by
        by_contra hne
        rw [sentLeaf, if_neg fun hand => hne hand.1] at hleaf
        cases hleaf
      have hhash : sentHash r.prunable l full p = none := by
        rw [sentHash, if_pos (.inr (.inl hheight))]
      dsimp only
      rw [hrest, hhash, Option.map_some, Option.toList_some, Option.map_none, Option.toList_none,
        List.nil_append, List.append_assoc]
    | none =>
      dsimp only
      rw [Index.calculateHeight, if_neg (h.not_stuck hp hleaf), Option.map_none,
        Option.toList_none, List.nil_append]
      cases hprunable : r.prunable with
      | false =>
        have hhash : sentHash false l full p = none := by rw [sentHash, if_pos (.inl rfl)]
        rw [if_neg Bool.false_ne_true, hrest, hprunable, hhash]
        rfl
      | true =>
        rw [if_pos rfl, h.lift_readHash hp hleaf hprunable, pure_bind, hrest, hprunable,
          List.append_assoc]

end SegmentReaders.Offers

end GrinPlusPlus
