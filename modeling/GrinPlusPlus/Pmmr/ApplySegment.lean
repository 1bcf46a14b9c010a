import GrinPlusPlus.Pmmr.OutputBitmap
import GrinPlusPlus.Pmmr.ServedSegments
import Mathlib.Data.List.Sort

/-!
# Segments are applied

`PruneableMMR::ApplySegment`, on the side of the receiver: hashes and leaves of a segment are
sorted by position and taken one after the other. What is already there is skipped, and so is what
the bitmap says to be no use, a hash over an unspent leaf and a leaf without an unspent sibling.
What remains has to begin where the range ends.

The delicate thing is that **the receiver prunes more than the sender**. A tree without unspent
leaves of which the sender still has everything comes as leaves and hashes, lowest first; the
leaves are skipped, and the receiver puts together the tree from the hashes of the pairs, one level
of roots. So its files are not those of the sender. What agrees is the range they stand for
(`GrinPlusPlus.PruneableFiles.Downloaded`), and that is enough for everything that is read.
-/

namespace GrinPlusPlus

open PostOrder Mountain MMRHashUtil MMRUtil Merkle Compact

/-- `PruneableMMR::SegmentNode`, with the value in the place of its index. -/
inductive SegmentNode (α : Type)
  | hash (position : ℕ) (hash : Hash)
  | leaf (position : ℕ) (leaf : α)

namespace SegmentNode

variable {α : Type}

/-- `position`. -/
def position : SegmentNode α → ℕ
  | hash position _ => position
  | leaf position _ => position

/-- `isHash`. -/
def isHash : SegmentNode α → Bool
  | hash _ _ => true
  | leaf _ _ => false

/-- The order of `operator<`: by position, the hash before the leaf. -/
def le (a b : SegmentNode α) : Bool :=
  if a.position = b.position then a.isHash || !b.isHash else decide (a.position < b.position)

protected theorem le_trans (a b c : SegmentNode α) (hab : a.le b = true)
    (hbc : b.le c = true) : a.le c = true := by
  rw [le] at hab hbc ⊢
  split at hab
  · split at hbc
    · rw [if_pos (by omega)]
      cases ha : a.isHash
      · rw [ha, Bool.false_or, Bool.not_eq_true'] at hab
        rw [hab, Bool.false_or] at hbc
        rw [hbc, Bool.or_true]
      · rw [Bool.true_or]
    · rw [decide_eq_true_eq] at hbc
      rw [if_neg (by omega), decide_eq_true_eq]
      omega
  · rw [decide_eq_true_eq] at hab
    split at hbc
    · rw [if_neg (by omega), decide_eq_true_eq]
      omega
    · rw [decide_eq_true_eq] at hbc
      rw [if_neg (by omega), decide_eq_true_eq]
      omega

protected theorem le_total (a b : SegmentNode α) : (a.le b || b.le a) = true := by
  rw [le, le]
  by_cases heq : a.position = b.position
  · rw [if_pos heq, if_pos heq.symm]
    cases a.isHash
    · cases b.isHash
      · rfl
      · rfl
    · rfl
  · rw [if_neg heq, if_neg (Ne.symm heq), Bool.or_eq_true, decide_eq_true_eq, decide_eq_true_eq]
    omega

end SegmentNode

/-- `GetSubtreeFirstPosition`. -/
def getSubtreeFirstPosition (index : Index) : ℕ :=
  index.position + 1 - (2 ^ (index.height + 1) - 1)

namespace PruneableFiles

variable {α : Type} (G : Global) (serialized : α → List UInt8)

/-- `PruneableMMR::RewindToEmpty`. The list of the pruned trees stays. -/
def rewindToEmpty (f : PruneableFiles α) : PruneableFiles α :=
  { f with
    hashFile := []
    dataFile := []
    leafSet := LeafSet.rewind 0 [] f.leafSet }

/-- The leaf of a node, in `PruneableMMR::ApplySegment`. `PruneableMMR::AppendLeaf` does what
`PruneableMMR::Append` does. -/
def applyLeaf (position : ℕ) (leaf : α) (f : PruneableFiles α) :
    Except Exc (Option (PruneableFiles α)) :=
  if position = f.getSize then do
    let f ← f.append G serialized leaf
    .ok (some f)
  else .ok none

/-- A node that is not there yet, in `PruneableMMR::ApplySegment`: `none` when it does not begin
where the range ends. -/
def applyNode (bitmap : Option BitmapAccumulator) (targetMMRSize : ℕ) :
    SegmentNode α → PruneableFiles α → Except Exc (Option (PruneableFiles α))
  | .hash position hash, f =>
    match bitmap with
    | none => do
      let f ← f.appendPrunedSubtree G hash position
      .ok (some f)
    | some bitmap =>
      let index := Index.ofPosition position
      if isRequiredByBitmap bitmap index targetMMRSize then .ok (some f)
      else
        let subtreeStart := getSubtreeFirstPosition index
        if subtreeStart < f.getSize then
          -- the range has the output of the genesis block only
          if subtreeStart = 0 ∧ f.getSize = 1 then do
            let f ← f.rewindToEmpty.appendPrunedSubtree G hash position
            .ok (some f)
          else .ok none
        else if subtreeStart ≠ f.getSize then .ok none
        else do
          let f ← f.appendPrunedSubtree G hash position
          .ok (some f)
  | .leaf position leaf, f =>
    match bitmap with
    | none => applyLeaf G serialized position leaf f
    | some bitmap =>
      if isLeafRequiredByBitmap bitmap position targetMMRSize then
        applyLeaf G serialized position leaf f
      else .ok (some f)

/-- The loop of `PruneableMMR::ApplySegment`. -/
def applyNodes (bitmap : Option BitmapAccumulator) (targetMMRSize : ℕ) :
    List (SegmentNode α) → PruneableFiles α → Except Exc (Bool × PruneableFiles α)
  | [], f => .ok (true, f)
  | node :: nodes, f =>
    if node.position < f.getSize then applyNodes bitmap targetMMRSize nodes f
    else do
      match ← applyNode G serialized bitmap targetMMRSize node f with
      | some f => applyNodes bitmap targetMMRSize nodes f
      | none => .ok (false, f)

/-- The nodes of a segment, sorted. -/
def orderedNodes (segment : Segment α) : List (SegmentNode α) :=
  (List.zipWith SegmentNode.hash segment.hashPos segment.hashes ++
    List.zipWith SegmentNode.leaf segment.leafPos segment.leaves).mergeSort SegmentNode.le

/-- `PruneableMMR::ApplySegment`. -/
def applySegment (bitmap : Option BitmapAccumulator) (targetMMRSize : ℕ) (segment : Segment α)
    (f : PruneableFiles α) : Except Exc (Bool × PruneableFiles α) :=
  if segment.leafPos.length ≠ segment.leaves.length then .ok (false, f)
  else if segment.hashPos.length ≠ segment.hashes.length then .ok (false, f)
  else applyNodes G serialized bitmap targetMMRSize (orderedNodes segment) f

/-- Segments are applied one after the other, up to the first that does not fit. -/
def applySegments (bitmap : Option BitmapAccumulator) (targetMMRSize : ℕ) :
    List (Segment α) → PruneableFiles α → Except Exc (Bool × PruneableFiles α)
  | [], f => .ok (true, f)
  | segment :: segments, f => do
    let (applied, f) ← applySegment G serialized bitmap targetMMRSize segment f
    if applied then applySegments bitmap targetMMRSize segments f
    else .ok (false, f)

end PruneableFiles

/-! ### The order of the nodes -/

namespace SegmentReaders

variable {α : Type} {r : SegmentReaders α} {l : PruneList} {full : List Hash} {leaves : List α}

/-- The node that is sent for a position. -/
def nodeAt (r : SegmentReaders α) (l : PruneList) (full : List Hash) (leaves : List α)
    (position : ℕ) : Option (SegmentNode α) :=
  match sentLeaf l leaves position with
  | some leaf => some (.leaf position leaf)
  | none => (sentHash r.prunable l full position).map (.hash position)

theorem sentHash_of_sentLeaf {prunable : Bool} {p : ℕ} {leaf : α}
    (h : sentLeaf l leaves p = some leaf) : sentHash prunable l full p = none := by
  have hheight : height p = 0 := by
    by_contra hne
    rw [sentLeaf, if_neg fun hand => hne hand.1] at h
    cases h
  rw [sentHash, if_pos (.inr (.inl hheight))]

theorem position_nodeAt {p : ℕ} {node : SegmentNode α}
    (h : r.nodeAt l full leaves p = some node) : node.position = p := by
  rw [nodeAt] at h
  split at h
  · cases h
    rfl
  · rw [Option.map_eq_some_iff] at h
    obtain ⟨hash, -, rfl⟩ := h
    rfl

/-- Hashes and leaves together are the nodes. -/
theorem perm_filterMap_nodeAt (positions : List ℕ) :
    ((tabulate (sentHash r.prunable l full) positions).map
        (fun e : ℕ × Hash => SegmentNode.hash e.1 e.2) ++
      (tabulate (sentLeaf l leaves) positions).map
        fun e : ℕ × α => SegmentNode.leaf e.1 e.2).Perm
      (positions.filterMap (r.nodeAt l full leaves)) := by
  induction positions with
  | nil => exact List.Perm.nil
  | cons p positions ih =>
    rw [tabulate_cons, tabulate_cons, List.filterMap_cons, nodeAt]
    cases hleaf : sentLeaf l leaves p with
    | some leaf =>
      rw [sentHash_of_sentLeaf hleaf]
      exact List.perm_middle.trans (ih.cons _)
    | none =>
      rw [Option.map_none, Option.toList_none, List.nil_append]
      cases sentHash r.prunable l full p with
      | none => exact ih
      | some hash => exact ih.cons _

/-- **The nodes of a segment come in the order of the range.** -/
theorem orderedNodes_offered {positions : List ℕ} (hsorted : positions.Pairwise (· < ·))
    {id : SegmentIdentifier} {proof : SegmentProof} :
    PruneableFiles.orderedNodes ((r.offered l full leaves positions).toSegment id proof) =
      positions.filterMap (r.nodeAt l full leaves) := by
  have hlt : (positions.filterMap (r.nodeAt l full leaves)).Pairwise
      fun a b => a.position < b.position := by
    refine List.Pairwise.filterMap _ (fun a a' hlt b hb b' hb' => ?_) hsorted
    rw [position_nodeAt hb, position_nodeAt hb']
    exact hlt
  have hle : (positions.filterMap (r.nodeAt l full leaves)).Pairwise
      fun a b => SegmentNode.le a b = true := by
    refine hlt.imp fun hab => ?_
    rw [SegmentNode.le, if_neg hab.ne, decide_eq_true hab]
  rw [PruneableFiles.orderedNodes, SegmentParts.toSegment, offered]
  dsimp only
  rw [List.zipWith_map, List.zipWith_map, List.zipWith_self, List.zipWith_self]
  refine List.Perm.eq_of_pairwise (fun a b ha hb hab hba => ?_)
    (List.pairwise_mergeSort SegmentNode.le_trans SegmentNode.le_total _) hle
    ((List.mergeSort_perm _ _).trans (perm_filterMap_nodeAt positions))
  -- two nodes at one position are one node
  have ha' := ((List.mergeSort_perm _ _).trans (perm_filterMap_nodeAt positions)).mem_iff.1 ha
  obtain ⟨p, hp, hpa⟩ := List.mem_filterMap.1 ha'
  obtain ⟨q, hq, hqb⟩ := List.mem_filterMap.1 hb
  have hpos : a.position = b.position := by
    rw [SegmentNode.le] at hab hba
    by_contra hne
    rw [if_neg hne, decide_eq_true_eq] at hab
    rw [if_neg (Ne.symm hne), decide_eq_true_eq] at hba
    omega
  rw [position_nodeAt hpa, position_nodeAt hqb] at hpos
  rw [hpos, hqb] at hpa
  exact (Option.some.inj hpa).symm

end SegmentReaders

/-! ### The range that was received so far -/

namespace PruneableFiles

variable {α : Type} {G : Global} {serialized : α → List UInt8} {bits : BitmapAccumulator}
  {leaves : List α} {full : List Hash} {g g' : PruneableFiles α} {n m k j : ℕ}

/-- **The files stand for the first leaves**, and no unspent leaf was pruned. -/
structure Downloaded (G : Global) (serialized : α → List UInt8) (bits : BitmapAccumulator)
    (leaves : List α) (g : PruneableFiles α) (m : ℕ) : Prop where
  /-- The files are those of the first leaves, with gaps. -/
  mirrors : Mirrors G serialized g (leaves.take m)
  /-- There are that many. -/
  le : m ≤ leaves.length
  /-- The gaps have no unspent leaf. -/
  unspent : ∀ i < m, bits.contains i = true → g.pruneList.isCompacted (leafPos i) = false

theorem Downloaded.getSize_eq (hg : Downloaded G serialized bits leaves g m) :
    g.getSize = leafPos m := by
  rw [hg.mirrors.getSize_eq, List.length_take, Nat.min_eq_left hg.le]

/-- The next leaf. -/
theorem Downloaded.append_ok (hg : Downloaded G serialized bits leaves g m) {leaf : α}
    (hleaf : leaves[m]? = some leaf) :
    ∃ g', g.append G serialized leaf = .ok g' ∧ Downloaded G serialized bits leaves g' (m + 1) := by
  obtain ⟨hm, -⟩ := List.getElem?_eq_some_iff.1 hleaf
  obtain ⟨g', happend, hmirrors, -, hprune⟩ := hg.mirrors.append_ok leaf
  have htake : leaves.take m ++ [leaf] = leaves.take (m + 1) := by
    rw [List.take_add_one, hleaf, Option.toList_some]
  rw [htake] at hmirrors
  refine ⟨g', happend, hmirrors, hm, fun i hi hbit => ?_⟩
  rw [hprune]
  rcases (Nat.lt_succ_iff.1 hi).eq_or_lt with rfl | hlt
  · have hroots := hg.mirrors.roots_lt
    rw [List.length_take, Nat.min_eq_left hg.le] at hroots
    exact PruneList.isCompacted_of_lt hroots
  · exact hg.unspent i hlt hbit

/-- The next tree, of which no leaf is unspent. -/
theorem Downloaded.appendPrunedSubtree_ok (hg : Downloaded G serialized bits leaves g m)
    (hfull : IsRangeOf G full (leaves.map serialized)) (hk : 1 ≤ k) (hm : m = 2 ^ k * j)
    (hle : 2 ^ k * (j + 1) ≤ leaves.length)
    (hnot : ∀ i < leaves.length, i / 2 ^ k = j → bits.contains i = false) :
    ∃ g', g.appendPrunedSubtree G (entryAt full (nodePos k j)) (nodePos k j) = .ok g' ∧
      Downloaded G serialized bits leaves g' (2 ^ k * (j + 1)) := by
  subst hm
  have hlength : (leaves.take (2 ^ k * j)).length = 2 ^ k * j := by
    rw [List.length_take, Nat.min_eq_left hg.le]
  have hsub : ((leaves.drop (2 ^ k * j)).take (2 ^ k)).length = 2 ^ k := by
    rw [Nat.mul_succ] at hle
    rw [List.length_take, List.length_drop]
    omega
  have htree : treeRoot (nodeHash G) k (leafPos (leaves.take (2 ^ k * j)).length)
      (((leaves.drop (2 ^ k * j)).take (2 ^ k)).map serialized) =
        some (entryAt full (nodePos k j)) := by
    obtain ⟨root, hroot, hat⟩ := hfull.tree (k := k) (a := j) (by
      rw [List.length_map]
      exact hle)
    rw [← nodePos_eq_leafPos_add] at hat
    rw [hlength, List.map_take, List.map_drop, hroot, entryAt, List.getD_eq_getElem?_getD, hat,
      Option.getD_some]
  obtain ⟨g', happend, hmirrors, -, hprune⟩ :=
    hg.mirrors.appendPrunedSubtree_ok hk hlength hsub htree
  have htake : leaves.take (2 ^ k * j) ++ (leaves.drop (2 ^ k * j)).take (2 ^ k) =
      leaves.take (2 ^ k * (j + 1)) := by
    rw [← List.take_add, Nat.mul_succ]
  rw [htake] at hmirrors
  refine ⟨g', happend, hmirrors, hle, fun i hi hbit => ?_⟩
  rw [← Bool.not_eq_true, hmirrors.apart.isCompacted_leaf_iff, hprune]
  rintro ⟨k', hk', hmem⟩
  rcases List.mem_append.1 hmem with hmem | hmem
  · -- an older tree, in front of which nothing has changed
    have hroot := hg.mirrors.roots_lt _ hmem
    have hbelow : nodePos 0 i ≤ nodePos k' (i / 2 ^ k') := nodePos_le_of_div_eq hk'.le rfl
    rw [hlength] at hroot
    rw [nodePos_zero] at hbelow
    have hi' := leafPos_strictMono.lt_iff_lt.1 (hbelow.trans_lt hroot)
    have hthere := hg.unspent i hi' hbit
    rw [hg.mirrors.apart.isCompacted_leaf_iff.2 ⟨k', hk', hmem⟩] at hthere
    cases hthere
  · obtain ⟨rfl, hdiv⟩ := nodePos_inj (List.mem_singleton.1 hmem)
    rw [hnot i (hi.trans_le hle) hdiv] at hbit
    cases hbit

/-- Going back to nothing. -/
theorem downloaded_rewindToEmpty (hempty : g.pruneList = .empty) :
    Downloaded G serialized bits leaves g.rewindToEmpty 0 := by
  have hrange : RangeOf G serialized g.rewindToEmpty [] := by
    refine ⟨isRange_nil, rfl, hempty, fun i hi => ?_⟩
    rw [PruneableFiles.rewindToEmpty] at hi
    simp [LeafSet.rewind] at hi
  exact ⟨hrange.mirrors, Nat.zero_le _, fun i hi => absurd hi (Nat.not_lt_zero i)⟩

/-- Where a segment may begin: at the end of the range, or at the first leaf when there is only
the output of the genesis block. -/
def Reached (G : Global) (serialized : α → List UInt8) (bits : BitmapAccumulator)
    (leaves : List α) (g : PruneableFiles α) (a : ℕ) : Prop :=
  Downloaded G serialized bits leaves g a ∨
    a = 0 ∧ g.pruneList = .empty ∧ Downloaded G serialized bits leaves g 1

/-! ### Nodes -/

variable {bitmap : Option BitmapAccumulator} {mmrSize : ℕ} {node : SegmentNode α}
  {nodes : List (SegmentNode α)}

/-- What is there already is skipped. -/
theorem applyNodes_cons_of_lt (h : node.position < g.getSize) :
    applyNodes G serialized bitmap mmrSize (node :: nodes) g =
      applyNodes G serialized bitmap mmrSize nodes g := by
  rw [applyNodes, if_pos h]

theorem applyNodes_cons_of_le (h : g.getSize ≤ node.position)
    (hnode : applyNode G serialized bitmap mmrSize node g = .ok (some g')) :
    applyNodes G serialized bitmap mmrSize (node :: nodes) g =
      applyNodes G serialized bitmap mmrSize nodes g' := by
  rw [applyNodes, if_neg (Nat.not_lt_of_le h), hnode]
  rfl

/-- A leaf that is not needed is skipped. -/
theorem applyNodes_cons_leaf {p : ℕ} {leaf : α}
    (hnot : isLeafRequiredByBitmap bits p mmrSize = false) :
    applyNodes G serialized (some bits) mmrSize (.leaf p leaf :: nodes) g =
      applyNodes G serialized (some bits) mmrSize nodes g := by
  rcases Nat.lt_or_ge p g.getSize with hlt | hge
  · exact applyNodes_cons_of_lt hlt
  · refine applyNodes_cons_of_le hge ?_
    rw [applyNode, hnot, if_neg Bool.false_ne_true]

/-- **A leaf that is needed** is appended, if it is not there. -/
theorem Reached.applyNodes_leaf {i : ℕ} (hg : Reached G serialized bits leaves g i) {leaf : α}
    (hleaf : leaves[i]? = some leaf)
    (hrequired : isLeafRequiredByBitmap bits (leafPos i) mmrSize = true) :
    ∃ g', Downloaded G serialized bits leaves g' (i + 1) ∧ ∀ nodes,
      applyNodes G serialized (some bits) mmrSize (.leaf (leafPos i) leaf :: nodes) g =
        applyNodes G serialized (some bits) mmrSize nodes g' := by
  rcases hg with hg | ⟨rfl, -, hg⟩
  · obtain ⟨g', happend, hg'⟩ := hg.append_ok hleaf
    refine ⟨g', hg', fun nodes => applyNodes_cons_of_le hg.getSize_eq.le ?_⟩
    rw [applyNode, hrequired, if_pos rfl, applyLeaf, hg.getSize_eq, if_pos rfl, happend]
    rfl
  · refine ⟨g, hg, fun nodes => applyNodes_cons_of_lt ?_⟩
    rw [hg.getSize_eq]
    exact leafPos_strictMono Nat.zero_lt_one

/-- **The hash of a tree that is not needed** is appended. -/
theorem Reached.applyNodes_hash (hg : Reached G serialized bits leaves g (2 ^ k * j))
    (hfull : IsRangeOf G full (leaves.map serialized)) (hn : leaves.length < 2 ^ 63) (hk : 1 ≤ k)
    (hle : 2 ^ k * (j + 1) ≤ leaves.length)
    (hnot : ∀ i < leaves.length, i / 2 ^ k = j → bits.contains i = false) :
    ∃ g', Downloaded G serialized bits leaves g' (2 ^ k * (j + 1)) ∧ ∀ nodes,
      applyNodes G serialized (some bits) (leafPos leaves.length)
          (.hash (nodePos k j) (entryAt full (nodePos k j)) :: nodes) g =
        applyNodes G serialized (some bits) (leafPos leaves.length) nodes g' := by
  have hroot := nodePos_eq_leafPos_add k j
  have hfirst : getSubtreeFirstPosition (Index.ofPosition (nodePos k j)) = leafPos (2 ^ k * j) := by
    have hpos := Nat.two_pow_pos (k + 1)
    have hpos' := Nat.two_pow_pos k
    rw [getSubtreeFirstPosition, Index.ofPosition_nodePos, Index.node]
    dsimp only
    rw [pow_succ] at hroot hpos ⊢
    omega
  have hneeded : isRequiredByBitmap bits (Index.ofPosition (nodePos k j))
      (leafPos leaves.length) = false := by
    rw [← Bool.not_eq_true, isRequiredByBitmap_nodePos_iff hn]
    rintro ⟨i, hi, hdiv, hbit⟩
    rw [hnot i hi hdiv] at hbit
    cases hbit
  rcases hg with hg | ⟨hzero, hempty, hg⟩
  · obtain ⟨g', happend, hg'⟩ := hg.appendPrunedSubtree_ok hfull hk rfl hle hnot
    refine ⟨g', hg', fun nodes => applyNodes_cons_of_le ?_ ?_⟩
    · rw [hg.getSize_eq, hroot]
      exact Nat.le_add_right _ _
    · rw [applyNode]
      dsimp only
      rw [hneeded, if_neg Bool.false_ne_true, hfirst, hg.getSize_eq, if_neg (lt_irrefl _),
        if_neg (not_not.2 rfl), happend]
      rfl
  · -- the range has the output of the genesis block only, which is not needed
    have hsize : g.getSize = 1 := hg.getSize_eq
    have hzero' : leafPos (2 ^ k * j) = 0 := by rw [hzero, leafPos_zero]
    obtain ⟨g', happend, hg'⟩ :=
      (downloaded_rewindToEmpty hempty).appendPrunedSubtree_ok hfull hk hzero.symm hle hnot
    refine ⟨g', hg', fun nodes => applyNodes_cons_of_le ?_ ?_⟩
    · have hpow : 2 ^ 1 ≤ 2 ^ k := Nat.pow_le_pow_right Nat.two_pos hk
      rw [hsize, SegmentNode.position, hroot, pow_succ]
      omega
    · rw [applyNode]
      dsimp only
      rw [hneeded, if_neg Bool.false_ne_true, hfirst, hsize, hzero', if_pos Nat.zero_lt_one,
        if_pos ⟨rfl, rfl⟩, happend]
      rfl

/-! ### Trees -/

variable {r : SegmentReaders α} {l : PruneList}

theorem nodeAt_of_isCompacted {p : ℕ} (hgone : l.isCompacted p = true) :
    r.nodeAt l full leaves p = none := by
  rw [SegmentReaders.nodeAt, sentLeaf, if_neg (by rw [hgone]; simp), sentHash,
    if_pos (.inr (.inr hgone))]
  rfl

theorem nodeAt_leafPos {i : ℕ} {leaf : α} (hthere : l.isCompacted (leafPos i) = false)
    (hleaf : leaves[i]? = some leaf) :
    r.nodeAt l full leaves (leafPos i) = some (.leaf (leafPos i) leaf) := by
  rw [SegmentReaders.nodeAt, sentLeaf, if_pos ⟨height_leafPos i, hthere⟩,
    calculateLeafIndex_leafPos, hleaf]

theorem nodeAt_nodePos (hprunable : r.prunable = true) (hk : 1 ≤ k)
    (hthere : l.isCompacted (nodePos k j) = false) :
    r.nodeAt l full leaves (nodePos k j) =
      some (.hash (nodePos k j) (entryAt full (nodePos k j))) := by
  have hheight := height_nodePos k j
  rw [SegmentReaders.nodeAt, sentLeaf, if_neg (by omega), sentHash, if_neg]
  · rfl
  · rintro (hfalse | hzero | hgone)
    · rw [hprunable] at hfalse
      cases hfalse
    · omega
    · rw [hthere] at hgone
      cases hgone

/-- Nothing comes of a tree that is missing. -/
theorem filterMap_block_of_isCompacted (hl : l.Apart)
    (hgone : l.isCompacted (nodePos k j) = true) :
    (block k j).filterMap (r.nodeAt l full leaves) = [] := by
  rw [List.filterMap_eq_nil_iff]
  intro p hp
  rw [block, List.mem_range'_1] at hp
  have hroot := nodePos_eq_leafPos_add k j
  have hpos := Nat.two_pow_pos (k + 1)
  obtain ⟨i, hi⟩ := exists_nodePos p
  rw [hi] at hp ⊢
  obtain ⟨h1, h2⟩ := below_iff.1 (⟨hp.1, by omega⟩ : leafPos (2 ^ k * j) ≤ nodePos (height p) i ∧
    nodePos (height p) i ≤ nodePos k j)
  exact nodeAt_of_isCompacted (hl.isCompacted_below h1 h2 hgone)

/-- What comes of a tree whose root was sent: what comes of its children, and the root. -/
theorem filterMap_block_succ (hprunable : r.prunable = true)
    (hthere : l.isCompacted (nodePos (k + 1) j) = false) :
    (block (k + 1) j).filterMap (r.nodeAt l full leaves) =
      (block k (2 * j)).filterMap (r.nodeAt l full leaves) ++
        ((block k (2 * j + 1)).filterMap (r.nodeAt l full leaves) ++
          [.hash (nodePos (k + 1) j) (entryAt full (nodePos (k + 1) j))]) := by
  rw [block_succ, List.filterMap_append, List.filterMap_append, List.filterMap_cons,
    nodeAt_nodePos hprunable (Nat.succ_pos k) hthere, List.filterMap_nil]

/-- **A pruned tree**: only its root was sent. -/
theorem Reached.applyNodes_root (ho : r.Offers G serialized l full leaves)
    (hm : r.Matches leaves.length (some bits)) (hn : leaves.length < 2 ^ 63)
    (hg : Reached G serialized bits leaves g (2 ^ (k + 1) * j))
    (hle : 2 ^ (k + 1) * (j + 1) ≤ leaves.length) (hroot : nodePos (k + 1) j ∈ l.prunedRoots) :
    ∃ g', Downloaded G serialized bits leaves g' (2 ^ (k + 1) * (j + 1)) ∧ ∀ nodes,
      applyNodes G serialized (some bits) (leafPos leaves.length)
          ((block (k + 1) j).filterMap (r.nodeAt l full leaves) ++ nodes) g =
        applyNodes G serialized (some bits) (leafPos leaves.length) nodes g' := by
  have hchild : ∀ c, c / 2 = j → l.isCompacted (nodePos k c) = true := fun c hc =>
    ho.apart.isCompacted_nodePos_iff.2 ⟨k + 1, Nat.lt_succ_self k, by
      rwa [Nat.add_sub_cancel_left, pow_one, hc]⟩
  rw [filterMap_block_succ hm.prunable_eq (ho.apart.root_not_compacted hroot),
    filterMap_block_of_isCompacted ho.apart (hchild (2 * j) (by omega)), List.nil_append,
    filterMap_block_of_isCompacted ho.apart (hchild (2 * j + 1) (by omega)), List.nil_append]
  exact hg.applyNodes_hash ho.range hn (Nat.succ_pos k) hle fun i hi hdiv =>
    ho.not_contains_of_root hm hi (Nat.succ_pos k) (hdiv.symm ▸ hroot)

/-- **Two leaves that are not needed** are skipped, and the hash of their parent is appended. -/
theorem Reached.applyNodes_pair (ho : r.Offers G serialized l full leaves)
    (hm : r.Matches leaves.length (some bits)) (hn : leaves.length < 2 ^ 63)
    (hg : Reached G serialized bits leaves g (2 ^ 1 * j)) (hle : 2 ^ 1 * (j + 1) ≤ leaves.length)
    (hthere : l.isCompacted (nodePos 1 j) = false)
    (hchild : ∀ c, c / 2 = j → l.isCompacted (nodePos 0 c) = false)
    (hnot : requiredAt bits.contains leaves.length (2 * j) = false) :
    ∃ g', Downloaded G serialized bits leaves g' (2 ^ 1 * (j + 1)) ∧ ∀ nodes,
      applyNodes G serialized (some bits) (leafPos leaves.length)
          ((block 1 j).filterMap (r.nodeAt l full leaves) ++ nodes) g =
        applyNodes G serialized (some bits) (leafPos leaves.length) nodes g' := by
  have hleft : 2 * j < leaves.length := by omega
  have hright : 2 * j + 1 < leaves.length := by omega
  have hsib : sibling (2 * j) = 2 * j + 1 := by rw [sibling, if_pos (by omega)]
  have hnot' : requiredAt bits.contains leaves.length (2 * j + 1) = false := by
    rw [← hsib, requiredAt_sibling hleft (by omega)]
    exact hnot
  have hskip : ∀ c, c / 2 = j → c < leaves.length →
      requiredAt bits.contains leaves.length c = false → ∀ nodes,
      applyNodes G serialized (some bits) (leafPos leaves.length)
          ((block 0 c).filterMap (r.nodeAt l full leaves) ++ nodes) g =
        applyNodes G serialized (some bits) (leafPos leaves.length) nodes g := by
    intro c hc hlt hnot nodes
    have hthere := hchild c hc
    rw [nodePos_zero] at hthere
    rw [block_zero, nodePos_zero, List.filterMap_cons,
      nodeAt_leafPos hthere (List.getElem?_eq_getElem hlt), List.filterMap_nil,
      List.singleton_append]
    exact applyNodes_cons_leaf (by rwa [isLeafRequiredByBitmap_leafPos bits hn])
  obtain ⟨g', hg', hrun⟩ := hg.applyNodes_hash ho.range hn le_rfl hle fun i hi hdiv => by
    have hself : ∀ c, requiredAt bits.contains leaves.length c = false →
        bits.contains c = false := by
      intro c hc
      rw [requiredAt, Bool.or_eq_false_iff, Bool.or_eq_false_iff] at hc
      exact hc.1.1
    obtain rfl | rfl : i = 2 * j ∨ i = 2 * j + 1 := by omega
    · exact hself _ hnot
    · exact hself _ hnot'
  refine ⟨g', hg', fun nodes => ?_⟩
  rw [filterMap_block_succ hm.prunable_eq hthere, List.append_assoc,
    hskip (2 * j) (by omega) hleft hnot, List.append_assoc,
    hskip (2 * j + 1) (by omega) hright hnot', List.singleton_append]
  exact hrun nodes

/-- **A tree whose root was sent** is put together, from whatever was sent of it. A single leaf has
to be needed for that. -/
theorem Reached.applyNodes_block (ho : r.Offers G serialized l full leaves)
    (hm : r.Matches leaves.length (some bits)) (hn : leaves.length < 2 ^ 63)
    (hg : Reached G serialized bits leaves g (2 ^ k * j)) (hle : 2 ^ k * (j + 1) ≤ leaves.length)
    (hthere : l.isCompacted (nodePos k j) = false)
    (hneeded : 1 ≤ k ∨ requiredAt bits.contains leaves.length j = true) :
    ∃ g', Downloaded G serialized bits leaves g' (2 ^ k * (j + 1)) ∧ ∀ nodes,
      applyNodes G serialized (some bits) (leafPos leaves.length)
          ((block k j).filterMap (r.nodeAt l full leaves) ++ nodes) g =
        applyNodes G serialized (some bits) (leafPos leaves.length) nodes g' := by
  induction k generalizing j g with
  | zero =>
    rw [pow_zero, Nat.one_mul] at hg hle ⊢
    rw [nodePos_zero] at hthere
    have hleaf := List.getElem?_eq_getElem (show j < leaves.length by omega)
    have hrequired : requiredAt bits.contains leaves.length j = true :=
      hneeded.resolve_left (by omega)
    rw [← isLeafRequiredByBitmap_leafPos bits hn] at hrequired
    rw [block_zero, nodePos_zero, List.filterMap_cons, nodeAt_leafPos hthere hleaf,
      List.filterMap_nil]
    exact hg.applyNodes_leaf hleaf hrequired
  | succ k ih =>
    by_cases hroot : nodePos (k + 1) j ∈ l.prunedRoots
    · exact hg.applyNodes_root ho hm hn hle hroot
    · have hchild : ∀ c, c / 2 = j → l.isCompacted (nodePos k c) = false := fun c hc =>
        ho.apart.child_not_compacted (hc.symm ▸ hthere) (hc.symm ▸ hroot)
      by_cases hboth : 1 ≤ k ∨ requiredAt bits.contains leaves.length (2 * j) = true
      · -- the children are put together, and then the root is there
        have hstart : 2 ^ k * (2 * j) = 2 ^ (k + 1) * j := by
          rw [two_pow_succ_mul, Nat.mul_left_comm]
        have hend : 2 ^ k * (2 * j + 1 + 1) = 2 ^ (k + 1) * (j + 1) := by
          rw [two_pow_succ_mul, show 2 * j + 1 + 1 = 2 * (j + 1) by omega, Nat.mul_left_comm]
        have hmid : 2 ^ k * (2 * j + 1) ≤ 2 ^ k * (2 * j + 1 + 1) :=
          Nat.mul_le_mul_left _ (Nat.le_succ _)
        have hright : 1 ≤ k ∨ requiredAt bits.contains leaves.length (2 * j + 1) = true := by
          rcases Nat.eq_zero_or_pos k with rfl | hpos
          · rw [zero_add, pow_one] at hle
            have hsib : sibling (2 * j) = 2 * j + 1 := by rw [sibling, if_pos (by omega)]
            rw [← hsib, requiredAt_sibling (by omega) (by omega)]
            exact hboth
          · exact .inl hpos
        obtain ⟨g₁, hg₁, hrun₁⟩ :=
          ih (hstart.symm ▸ hg) (by omega) (hchild (2 * j) (by omega)) hboth
        obtain ⟨g₂, hg₂, hrun₂⟩ := ih (.inl hg₁) (by omega) (hchild (2 * j + 1) (by omega)) hright
        rw [hend] at hg₂
        refine ⟨g₂, hg₂, fun nodes => ?_⟩
        rw [filterMap_block_succ hm.prunable_eq hthere, List.append_assoc, hrun₁,
          List.append_assoc, hrun₂, List.singleton_append]
        refine applyNodes_cons_of_lt ?_
        rw [hg₂.getSize_eq, SegmentNode.position]
        exact nodePos_lt_leafPos_iff.2 le_rfl
      · obtain ⟨hk, hnot⟩ := not_or.1 hboth
        obtain rfl : k = 0 := by omega
        rw [Bool.not_eq_true] at hnot
        exact hg.applyNodes_pair ho hm hn hle hthere hchild hnot

/-! ### Segments -/

section Blocks

variable {h i a b k' : ℕ}

/-- The blocks of a larger tree, by their first leaves. -/
theorem block_under_iff (hk : h ≤ k) :
    i / 2 ^ (k - h) = a ↔ 2 ^ k * a ≤ 2 ^ h * i ∧ 2 ^ h * i < 2 ^ k * (a + 1) := by
  have hpow : 2 ^ k = 2 ^ h * 2 ^ (k - h) := by
    rw [← pow_add]
    congr 1
    omega
  rw [div_two_pow_eq_iff, hpow, Nat.mul_assoc, Nat.mul_assoc,
    Nat.mul_le_mul_left_iff (Nat.two_pow_pos h), Nat.mul_lt_mul_left (Nat.two_pow_pos h)]

/-- A tree ends before or at the end of a larger one that it does not begin behind. -/
theorem block_end_le (hk : k ≤ h) (hlt : 2 ^ k * a < 2 ^ h * b) : 2 ^ k * (a + 1) ≤ 2 ^ h * b := by
  have hpow : 2 ^ h = 2 ^ k * 2 ^ (h - k) := by
    rw [← pow_add]
    congr 1
    omega
  rw [hpow, Nat.mul_assoc] at hlt ⊢
  exact Nat.mul_le_mul_left _ (Nat.lt_of_mul_lt_mul_left hlt)

theorem block_start_le (hk : h ≤ k) (hlt : 2 ^ k * a < 2 ^ h * (b + 1)) :
    2 ^ k * a ≤ 2 ^ h * b := by
  have hpow : 2 ^ k = 2 ^ h * 2 ^ (k - h) := by
    rw [← pow_add]
    congr 1
    omega
  rw [hpow, Nat.mul_assoc] at hlt ⊢
  exact Nat.mul_le_mul_left _ (Nat.lt_succ_iff.1 (Nat.lt_of_mul_lt_mul_left hlt))

/-- No missing tree begins in front of a leaf and ends behind it. -/
def Clear (l : PruneList) (m : ℕ) : Prop :=
  ∀ k a, nodePos k a ∈ l.prunedRoots → 2 ^ k * a < m → 2 ^ k * (a + 1) ≤ m

/-- Behind a tree that is not missing. -/
theorem clear_of_there (hl : l.Apart) (hthere : l.isCompacted (nodePos h i) = false) :
    Clear l (2 ^ h * (i + 1)) := by
  intro k a hroot hlt
  rcases Nat.lt_or_ge h k with hk | hk
  · by_contra hgt
    have hstart := block_start_le hk.le hlt
    have hend : 2 ^ h * i < 2 ^ k * (a + 1) :=
      lt_trans (Nat.mul_lt_mul_of_pos_left (Nat.lt_succ_self i) (Nat.two_pow_pos h))
        (Nat.lt_of_not_le hgt)
    rw [hl.isCompacted_nodePos_iff.2 ⟨k, hk, by rwa [(block_under_iff hk.le).2 ⟨hstart, hend⟩]⟩]
      at hthere
    cases hthere
  · exact block_end_le hk hlt

/-- A block is missing with one tree only. -/
theorem root_unique (hl : l.Apart) (hk : h < k) (hk' : h < k')
    (hroot : nodePos k (i / 2 ^ (k - h)) ∈ l.prunedRoots)
    (hroot' : nodePos k' (i / 2 ^ (k' - h)) ∈ l.prunedRoots) : k = k' := by
  have hle : ∀ k k', h < k → nodePos k (i / 2 ^ (k - h)) ∈ l.prunedRoots →
      nodePos k' (i / 2 ^ (k' - h)) ∈ l.prunedRoots → k' ≤ k := by
    intro k k' hk hroot hroot'
    by_contra hlt
    have hdiv : i / 2 ^ (k - h) / 2 ^ (k' - k) = i / 2 ^ (k' - h) := by
      rw [Nat.div_div_eq_div_mul, ← pow_add]
      congr 2
      omega
    have hthere := hl.root_not_compacted hroot
    rw [hl.isCompacted_nodePos_iff.2 ⟨k', Nat.lt_of_not_le hlt, by rwa [hdiv]⟩] at hthere
    cases hthere
  exact le_antisymm (hle k' k hk' hroot' hroot) (hle k k' hk hroot hroot')

end Blocks

/-- **How far the range reaches in front of a segment**: up to it, or up to the end of a missing
tree that the segment is a part of. -/
inductive Before (G : Global) (serialized : α → List UInt8) (bits : BitmapAccumulator)
    (leaves : List α) (l : PruneList) (h i : ℕ) (g : PruneableFiles α) : Prop
  | front (hg : Reached G serialized bits leaves g (2 ^ h * i)) (hclear : Clear l (2 ^ h * i))
  | inside {k a : ℕ} (hk : h < k) (hroot : nodePos k a ∈ l.prunedRoots)
      (hlt : 2 ^ k * a < 2 ^ h * i) (hgt : 2 ^ h * i < 2 ^ k * (a + 1))
      (hg : Downloaded G serialized bits leaves g (2 ^ k * (a + 1)))

variable {h i : ℕ} {id : SegmentIdentifier} {s : Segment α}

/-- Behind the root of a missing tree. -/
theorem Before.of_root (hl : l.Apart) {a : ℕ} (hk : h < k) (hroot : nodePos k a ∈ l.prunedRoots)
    (hle : 2 ^ k * a ≤ 2 ^ h * i) (hgt : 2 ^ h * i < 2 ^ k * (a + 1))
    (hg : Downloaded G serialized bits leaves g (2 ^ k * (a + 1))) :
    Before G serialized bits leaves l h (i + 1) g := by
  have hnext : 2 ^ h * (i + 1) ≤ 2 ^ k * (a + 1) := block_end_le hk.le hgt
  rcases hnext.eq_or_lt with heq | hlt
  · refine .front (.inl (heq.symm ▸ hg)) ?_
    rw [heq]
    exact clear_of_there hl (hl.root_not_compacted hroot)
  · refine .inside hk hroot (lt_of_le_of_lt hle ?_) hlt hg
    exact Nat.mul_lt_mul_of_pos_left (Nat.lt_succ_self i) (Nat.two_pow_pos h)

theorem applySegment_eq (hs : s.Deserialized) :
    applySegment G serialized bitmap mmrSize s g =
      applyNodes G serialized bitmap mmrSize (orderedNodes s) g := by
  rw [applySegment, if_neg (not_not.2 hs.length_leaves), if_neg (not_not.2 hs.length_hashes)]

/-- **A full segment is applied.** -/
theorem Before.applySegment_full (ho : r.Offers G serialized l full leaves)
    (hm : r.Matches leaves.length (some bits)) (hn : leaves.length < 2 ^ 63) (hid : id.Block h i)
    (hpos : 1 ≤ h) (hblock : 2 ^ h * (i + 1) ≤ leaves.length)
    (hs : r.Serves l full leaves id h i s) (hg : Before G serialized bits leaves l h i g) :
    ∃ g', applySegment G serialized (some bits) (leafPos leaves.length) s g = .ok (true, g') ∧
      Before G serialized bits leaves l h (i + 1) g' := by
  rw [applySegment_eq hs.deserialized]
  cases hs with
  | nodes proof hthere =>
    have hthere := hthere hblock
    cases hg with
    | front hg hclear =>
      obtain ⟨g', hg', hrun⟩ := hg.applyNodes_block ho hm hn hblock hthere (.inl hpos)
      have hrun := hrun []
      rw [List.append_nil] at hrun
      rw [SegmentReaders.orderedNodes_offered (SegmentReaders.pairwise_positions _ _),
        SegmentReaders.Offers.positions_full hid hn hblock, hrun, applyNodes]
      exact ⟨g', rfl, .front (.inl hg') (clear_of_there ho.apart hthere)⟩
    | @inside k a hk hroot hlt hgt hg =>
      have hdiv := (block_under_iff hk.le).2 ⟨hlt.le, hgt⟩
      rw [ho.apart.isCompacted_nodePos_iff.2 ⟨k, hk, by rwa [hdiv]⟩] at hthere
      cases hthere
  | @root proof k hk hroot =>
    obtain ⟨hle, hgt⟩ := (block_under_iff hk.le).1 (rfl : i / 2 ^ (k - h) = _)
    have hend := nodePos_lt_leafPos_iff.1 (ho.roots_lt _ hroot)
    have hnodes : orderedNodes ((⟨[(nodePos k (i / 2 ^ (k - h)),
        entryAt full (nodePos k (i / 2 ^ (k - h))))], []⟩ : SegmentParts α).toSegment id proof) =
          [.hash (nodePos k (i / 2 ^ (k - h))) (entryAt full (nodePos k (i / 2 ^ (k - h))))] := by
      rw [orderedNodes, SegmentParts.toSegment]
      dsimp only
      rw [List.map_singleton, List.map_singleton, List.map_nil, List.map_nil,
        List.zipWith_cons_cons, List.zipWith_nil_left, List.zipWith_nil_left, List.append_nil,
        List.mergeSort_singleton]
    rw [hnodes]
    cases hg with
    | front hg hclear =>
      have hstart : 2 ^ k * (i / 2 ^ (k - h)) = 2 ^ h * i := by
        refine le_antisymm hle (Nat.le_of_not_lt fun hlt => ?_)
        have := hclear _ _ hroot hlt
        omega
      rw [← hstart] at hg
      obtain ⟨g', hg', hrun⟩ := hg.applyNodes_hash ho.range hn (by omega) hend fun a ha hdiv =>
        ho.not_contains_of_root hm ha (by omega) (hdiv.symm ▸ hroot)
      rw [hrun [], applyNodes]
      exact ⟨g', rfl, .of_root ho.apart hk hroot hle hgt hg'⟩
    | @inside k' a hk' hroot' hlt' hgt' hg =>
      -- the same tree, which is there already
      have hdiv := (block_under_iff hk'.le).2 ⟨hlt'.le, hgt'⟩
      subst hdiv
      obtain rfl := root_unique ho.apart hk hk' hroot hroot'
      rw [applyNodes_cons_of_lt (by
        rw [hg.getSize_eq, SegmentNode.position]
        exact nodePos_lt_leafPos_iff.2 le_rfl), applyNodes]
      exact ⟨g, rfl, .of_root ho.apart hk hroot hle hgt hg⟩

/-- Trees one behind the other. -/
theorem Reached.applyNodes_blocks (ho : r.Offers G serialized l full leaves)
    (hm : r.Matches leaves.length (some bits)) (hn : leaves.length < 2 ^ 63) {a : ℕ}
    {q : ℕ × ℕ} {qs : List (ℕ × ℕ)} (hrun : Consecutive a leaves.length (q :: qs))
    (hpeaks : ∀ p ∈ q :: qs, p ∈ rangePeaks leaves.length)
    (hg : Reached G serialized bits leaves g a) :
    ∃ g', Downloaded G serialized bits leaves g' leaves.length ∧
      applyNodes G serialized (some bits) (leafPos leaves.length)
          (((q :: qs).flatMap fun p => block p.1 p.2).filterMap (r.nodeAt l full leaves)) g =
        .ok (true, g') := by
  have hstep : ∀ p ∈ q :: qs, ∀ g : PruneableFiles α,
      Reached G serialized bits leaves g (2 ^ p.1 * p.2) →
      ∃ g', Downloaded G serialized bits leaves g' (2 ^ p.1 * (p.2 + 1)) ∧ ∀ nodes,
        applyNodes G serialized (some bits) (leafPos leaves.length)
            ((block p.1 p.2).filterMap (r.nodeAt l full leaves) ++ nodes) g =
          applyNodes G serialized (some bits) (leafPos leaves.length) nodes g' := by
    intro p hp g hg
    have hpeak := hpeaks p hp
    refine hg.applyNodes_block ho hm hn ((consecutive_rangePeaks _).mem hpeak).2
      (ho.peak_not_compacted hpeak) ?_
    rcases Nat.eq_zero_or_pos p.1 with hzero | hpos
    · have hrequired := (pos_or_requiredAt hpeak bits.contains).resolve_left (by omega)
      rw [hzero, pow_zero, Nat.one_mul] at hrequired
      exact .inr hrequired
    · exact .inl hpos
  induction qs generalizing a q g with
  | nil =>
    obtain ⟨rfl, hlast⟩ := hrun
    obtain ⟨g', hg', happly⟩ := hstep q List.mem_cons_self g hg
    have hlast : 2 ^ q.1 * (q.2 + 1) = leaves.length := hlast
    rw [hlast] at hg'
    refine ⟨g', hg', ?_⟩
    have happly := happly []
    rw [List.append_nil, applyNodes] at happly
    rw [List.flatMap_cons, List.flatMap_nil, List.append_nil]
    exact happly
  | cons q' qs ih =>
    obtain ⟨rfl, hrest⟩ := hrun
    obtain ⟨g₁, hg₁, happly⟩ := hstep q List.mem_cons_self g hg
    obtain ⟨g₂, hg₂, happly₂⟩ := ih hrest (fun p hp => hpeaks p (List.mem_cons_of_mem _ hp))
      (.inl hg₁) fun p hp => hstep p (List.mem_cons_of_mem _ hp)
    refine ⟨g₂, hg₂, ?_⟩
    rw [List.flatMap_cons, List.filterMap_append, happly]
    exact happly₂

/-- **The last segment is applied.** -/
theorem Before.applySegment_last (ho : r.Offers G serialized l full leaves)
    (hm : r.Matches leaves.length (some bits)) (hn : leaves.length < 2 ^ 63) (hid : id.Block h i)
    (hfirst : 2 ^ h * i < leaves.length) (hlast : leaves.length < 2 ^ h * (i + 1))
    (hs : r.Serves l full leaves id h i s) (hg : Before G serialized bits leaves l h i g) :
    ∃ g', applySegment G serialized (some bits) (leafPos leaves.length) s g = .ok (true, g') ∧
      Downloaded G serialized bits leaves g' leaves.length := by
  -- a missing tree ends in the range, so it has no part of the last segment
  have hinside : ∀ k a, h < k → nodePos k a ∈ l.prunedRoots → 2 ^ h * i < 2 ^ k * (a + 1) →
      False := by
    intro k a hk hroot hgt
    have hend := nodePos_lt_leafPos_iff.1 (ho.roots_lt _ hroot)
    have := block_end_le hk.le hgt
    omega
  rw [applySegment_eq hs.deserialized]
  cases hs with
  | nodes proof _ =>
    obtain ⟨front, p, back, hsplit, hpeaks, hrun, -⟩ := Segment.rangePeaks_last hfirst hlast
    cases hg with
    | front hg hclear =>
      obtain ⟨g', hg', happly⟩ := hg.applyNodes_blocks ho hm hn hrun fun q hq => by
        rw [hsplit]
        exact List.mem_append_right _ hq
      rw [SegmentReaders.orderedNodes_offered (SegmentReaders.pairwise_positions _ _),
        SegmentReaders.Offers.positions_last hid hn hfirst hlast, hpeaks]
      exact ⟨g', happly, hg'⟩
    | inside hk hroot hlt hgt hg => exact (hinside _ _ hk hroot hgt).elim
  | root proof hk hroot =>
    exact (hinside _ _ hk hroot ((block_under_iff hk.le).1 rfl).2).elim

/-- At the end of the range. -/
theorem Before.downloaded (ho : r.Offers G serialized l full leaves) (hpos : 0 < leaves.length)
    (hend : leaves.length ≤ 2 ^ h * i) (hg : Before G serialized bits leaves l h i g) :
    Downloaded G serialized bits leaves g leaves.length := by
  cases hg with
  | front hg _ =>
    rcases hg with hg | ⟨hzero, -, -⟩
    · have heq : 2 ^ h * i = leaves.length := le_antisymm hg.le hend
      rwa [heq] at hg
    · omega
  | inside hk hroot hlt hgt _ =>
    have := nodePos_lt_leafPos_iff.1 (ho.roots_lt _ hroot)
    omega

/-- The segments of a range from a block on. -/
def ServedFrom (r : SegmentReaders α) (l : PruneList) (full : List Hash) (leaves : List α)
    (h i : ℕ) (segments : List (Segment α)) : Prop :=
  ∀ j s, segments[j]? = some s →
    ∃ id : SegmentIdentifier, id.Block h (i + j) ∧ r.Serves l full leaves id h (i + j) s

/-- **All segments are applied**, one after the other. -/
theorem Before.applySegments (ho : r.Offers G serialized l full leaves)
    (hm : r.Matches leaves.length (some bits)) (hn : leaves.length < 2 ^ 63)
    (hnonempty : 0 < leaves.length) (hpos : 1 ≤ h) {segments : List (Segment α)}
    (hserved : ServedFrom r l full leaves h i segments)
    (hcount : (leaves.length + 2 ^ h - 1) / 2 ^ h = i + segments.length)
    (hg : Before G serialized bits leaves l h i g) :
    ∃ g', applySegments G serialized (some bits) (leafPos leaves.length) segments g =
        .ok (true, g') ∧
      Downloaded G serialized bits leaves g' leaves.length := by
  have hpow := Nat.two_pow_pos h
  induction segments generalizing i g with
  | nil =>
    rw [List.length_nil, Nat.add_zero] at hcount
    have hend := (div_two_pow_eq_iff.1 hcount).2
    rw [Nat.mul_succ] at hend
    exact ⟨g, rfl, hg.downloaded ho hnonempty (by omega)⟩
  | cons s segments ih =>
    obtain ⟨id, hid, hs⟩ := hserved 0 s rfl
    rw [Nat.add_zero] at hid hs
    rw [List.length_cons] at hcount
    have hbounds := div_two_pow_eq_iff.1 hcount
    have hfirst : 2 ^ h * i < leaves.length := by
      have : 2 ^ h * (i + 1) ≤ 2 ^ h * (i + (segments.length + 1)) :=
        Nat.mul_le_mul_left _ (by omega)
      rw [Nat.mul_succ] at this
      omega
    rcases Nat.lt_or_ge leaves.length (2 ^ h * (i + 1)) with hlast | hblock
    · obtain ⟨g', happly, hg'⟩ := hg.applySegment_last ho hm hn hid hfirst hlast hs
      have hnil : segments = [] := by
        rw [← List.length_eq_zero_iff]
        have hle : (leaves.length + 2 ^ h - 1) / 2 ^ h < i + 2 := by
          rw [Nat.div_lt_iff_lt_mul hpow, Nat.mul_comm, show i + 2 = i + 1 + 1 by omega,
            Nat.mul_succ]
          omega
        omega
      refine ⟨g', ?_, hg'⟩
      rw [hnil, PruneableFiles.applySegments, happly]
      rfl
    · obtain ⟨g₁, happly, hg₁⟩ := hg.applySegment_full ho hm hn hid hpos hblock hs
      obtain ⟨g', hrest, hg'⟩ := ih (fun j s' hj => by
        rw [show i + 1 + j = i + (j + 1) by omega]
        exact hserved (j + 1) s' hj) (by omega) hg₁
      refine ⟨g', ?_, hg'⟩
      rw [PruneableFiles.applySegments, happly]
      exact hrest

end PruneableFiles

end GrinPlusPlus
