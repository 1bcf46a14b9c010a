import GrinPlusPlus.Lib.Compact
import GrinPlusPlus.Lib.Peaks
import GrinPlusPlus.Pmmr.ShiftCaches
import GrinPlusPlus.Pmmr.TxHashSetValidator
import Mathlib.Data.List.Sort
import Mathlib.Data.List.TakeWhile

/-!
# A pruned range stands for a plain one

`PruneableMMR` with its prune list, against the range of **all** leaves that were ever in it, the
pruned ones included. Its two files have gaps: the nodes under a pruned root are missing from the
hashes, the leaves under it from the data. Both are read through a shift, and the two shifts are
not taken at the same place (`PruneableMMR::GetHashAt` asks at the position, `GetDataAt` one
behind it, `Rewind` one before the next leaf). What makes all three right is that a shift is a
count of what is gone (`GrinPlusPlus.PruneList.Apart.getShift_eq`), so each file is the plain one
with gaps in the sense of `Compact.keep`: `GrinPlusPlus.PruneableFiles.Mirrors`.

A pruned subtree is appended by its root hash alone (`PruneableMMR::AppendPrunedSubtree`), so the
leaves that the range then stands for are any leaves with that hash.

* `GrinPlusPlus.PruneableFiles.Mirrors.append_ok`, `.appendPrunedSubtree_ok`, `.rewind_ok` – the
  operations are those of the plain range, and none of them fails;
* `GrinPlusPlus.PruneableFiles.Mirrors.root_eq` – so is the root, at every size that cuts through
  no pruned subtree.
-/

namespace GrinPlusPlus

open PostOrder Mountain MMRHashUtil Exec Compact

/-! ### Adding a pruned root -/

namespace PruneList

theorem sorted_orderedInsert {roots : List ℕ} (hsorted : roots.Pairwise (· < ·)) {root : ℕ}
    (hnew : root ∉ roots) : (roots.orderedInsert (· ≤ ·) root).Pairwise (· < ·) := by
  have hle : (roots.orderedInsert (· ≤ ·) root).Pairwise (· ≤ ·) :=
    (hsorted.imp le_of_lt).orderedInsert root roots
  have hne : (roots.orderedInsert (· ≤ ·) root).Pairwise (· ≠ ·) :=
    ((roots.perm_orderedInsert (· ≤ ·) root).nodup_iff).2
      (List.nodup_cons.2 ⟨hnew, hsorted.imp ne_of_lt⟩)
  exact (hle.and hne).imp fun h => lt_of_le_of_ne h.1 h.2

/-- `PruneList::AddPrunedRoot`. -/
def addPrunedRoot (root : ℕ) (l : PruneList) : PruneList :=
  if h : root ∈ l.prunedRoots then l
  else ⟨l.prunedRoots.orderedInsert (· ≤ ·) root, sorted_orderedInsert l.sorted h⟩

variable {l : PruneList} {root p n : ℕ}

theorem mem_addPrunedRoot {r : ℕ} :
    r ∈ (l.addPrunedRoot root).prunedRoots ↔ r = root ∨ r ∈ l.prunedRoots := by
  rw [addPrunedRoot]
  split
  · next hmem => exact ⟨.inr, fun h => h.elim (fun heq => heq ▸ hmem) id⟩
  · exact List.mem_orderedInsert _

/-! ### Shifts count gaps -/

theorem Apart.getShift_eq_countGone (h : l.Apart) (hp : l.isCompacted p = false) :
    l.getShift p = countGone l.isCompacted p := by
  rw [h.getShift_eq hp, ncard_lt_and]

theorem Apart.getTotalShift_eq_countGone (h : l.Apart) {size : ℕ}
    (hlt : ∀ r ∈ l.prunedRoots, r < size) : l.getTotalShift = countGone l.isCompacted size := by
  have hset : {q | l.isCompacted q = true} = {q | q < size ∧ l.isCompacted q = true} := by
    ext q
    refine ⟨fun hq => ⟨?_, hq⟩, fun hq => hq.2⟩
    obtain ⟨r, hr, hunder, -⟩ := h.isCompacted_iff.1 hq
    exact lt_of_le_of_lt hunder.2 (hlt r hr)
  rw [h.getTotalShift_eq, hset, ncard_lt_and]

/-- What is under a root of height zero is the root. -/
theorem ne_root_iff {r q : ℕ} (hunder : Under (leafPos q) r) :
    leafPos q ≠ r ↔ 1 ≤ height r := by
  constructor
  · intro hne
    by_contra hzero
    have hz : height r = 0 := by omega
    have hle := hunder.1
    rw [hz] at hle
    have := hunder.2
    omega
  · rintro hpos rfl
    rw [height_leafPos] at hpos
    omega

/-- A leaf is compacted under the roots that are no leaves. -/
theorem Apart.isCompacted_leafPos_iff (h : l.Apart) :
    l.isCompacted (leafPos n) = true ↔
      ∃ r ∈ l.prunedRoots, 1 ≤ height r ∧ Under (leafPos n) r := by
  rw [h.isCompacted_iff]
  refine exists_congr fun r => and_congr_right fun _ => ?_
  rw [and_comm]
  exact and_congr_left ne_root_iff

theorem Apart.getLeafShift_eq_countGone (h : l.Apart) (hn : l.isCompacted (leafPos n) = false)
    (hp : p = leafPos n ∨ p = leafPos n + 1) :
    l.getLeafShift p = countGone (fun i => l.isCompacted (leafPos i)) n := by
  rw [h.getLeafShift_eq (n := n) _ hp, ← ncard_lt_and]
  · simp only [h.isCompacted_leafPos_iff]
  · intro r hr hpos hunder
    rw [h.isCompacted_leafPos_iff.2 ⟨r, hr, hpos, hunder⟩] at hn
    cases hn

/-- Behind the last root nothing is compacted. -/
theorem isCompacted_of_lt (hlt : ∀ r ∈ l.prunedRoots, r < p) : l.isCompacted p = false := by
  have hpruned : l.isPruned p = false := by
    rw [← Bool.not_eq_true, isPruned_iff_under]
    rintro ⟨r, hr, hunder⟩
    have := hlt r hr
    have := hunder.2
    omega
  rw [isCompacted, hpruned, Bool.false_and]

/-- **Before the next leaf** the shifts are those of the whole range. -/
theorem Apart.shifts_decrement (h : l.Apart) (hlt : ∀ r ∈ l.prunedRoots, r < leafPos n) :
    l.getShift (decrement (leafPos n)) = countGone l.isCompacted (leafPos n) ∧
      l.getLeafShift (decrement (leafPos n)) =
        countGone (fun i => l.isCompacted (leafPos i)) n := by
  have hle : ∀ r ∈ l.prunedRoots, r ≤ decrement (leafPos n) := by
    intro r hr
    have hr' := hlt r hr
    rw [decrement, if_neg (by omega)]
    omega
  have hnot := isCompacted_of_lt hlt
  constructor
  · rw [← h.getShift_eq_countGone hnot, getShift, getShift,
      List.filter_eq_self.2 fun r hr => decide_eq_true (hle r hr),
      List.filter_eq_self.2 fun r hr => decide_eq_true (hlt r hr).le]
  · rw [← h.getLeafShift_eq_countGone hnot (.inl rfl), getLeafShift_of_forall_le hle,
      getLeafShift_of_forall_le fun r hr => (hlt r hr).le]

/-! ### One more subtree -/

variable {k j : ℕ}

theorem under_nodePos_iff : Under p (nodePos k j) ↔ leafPos (2 ^ k * j) ≤ p ∧ p ≤ nodePos k j :=
  below_iff_under.symm.trans below_nodePos_iff

/-- A subtree that begins behind the others is apart from them. -/
theorem Apart.addPrunedRoot (h : l.Apart) (hlt : ∀ r ∈ l.prunedRoots, r < leafPos (2 ^ k * j)) :
    (l.addPrunedRoot (nodePos k j)).Apart := by
  have hroot : leafPos (2 ^ k * j) ≤ nodePos k j :=
    (under_nodePos_iff.1 (below_iff_under.1 .root)).1
  intro r hr r' hr' hunder
  rcases mem_addPrunedRoot.1 hr with rfl | hr
  · rcases mem_addPrunedRoot.1 hr' with rfl | hr'
    · rfl
    · have := hlt r' hr'
      have := hunder.2
      omega
  · rcases mem_addPrunedRoot.1 hr' with rfl | hr'
    · have := hlt r hr
      have := (under_nodePos_iff.1 hunder).1
      omega
    · exact h r hr r' hr' hunder

theorem addPrunedRoot_of_lt (hlt : ∀ r ∈ l.prunedRoots, r < root) :
    (l.addPrunedRoot root).prunedRoots = l.prunedRoots ++ [root] := by
  have hnew : root ∉ l.prunedRoots := fun h => lt_irrefl _ (hlt root h)
  rw [PruneList.addPrunedRoot, dif_neg hnew]
  have hall : ∀ r ∈ l.prunedRoots, decide ¬root ≤ r := fun r hr =>
    decide_eq_true (Nat.not_le_of_lt (hlt r hr))
  change l.prunedRoots.orderedInsert (· ≤ ·) root = _
  rw [List.orderedInsert_eq_take_drop, List.takeWhile_eq_self_iff.2 hall,
    List.dropWhile_eq_nil_iff.2 hall]

/-- **What a subtree adds**: nothing in front of it, all of its nodes but the root, nothing
behind. -/
theorem Apart.isCompacted_addPrunedRoot (h : l.Apart)
    (hlt : ∀ r ∈ l.prunedRoots, r < leafPos (2 ^ k * j)) :
    (∀ p < leafPos (2 ^ k * j), (l.addPrunedRoot (nodePos k j)).isCompacted p = l.isCompacted p) ∧
    (∀ p, leafPos (2 ^ k * j) ≤ p → p < nodePos k j →
      (l.addPrunedRoot (nodePos k j)).isCompacted p = true) ∧
    (l.addPrunedRoot (nodePos k j)).isCompacted (nodePos k j) = false := by
  have hroot : leafPos (2 ^ k * j) ≤ nodePos k j :=
    (under_nodePos_iff.1 (below_iff_under.1 .root)).1
  have hapart := h.addPrunedRoot hlt
  refine ⟨fun p hp => ?_, fun p hge hp => ?_, ?_⟩
  · rw [Bool.eq_iff_iff, hapart.isCompacted_iff, h.isCompacted_iff]
    constructor
    · rintro ⟨r, hr, hunder, hne⟩
      rcases mem_addPrunedRoot.1 hr with rfl | hr
      · have := (under_nodePos_iff.1 hunder).1
        omega
      · exact ⟨r, hr, hunder, hne⟩
    · rintro ⟨r, hr, hunder, hne⟩
      exact ⟨r, mem_addPrunedRoot.2 (.inr hr), hunder, hne⟩
  · rw [hapart.isCompacted_iff]
    exact ⟨_, mem_addPrunedRoot.2 (.inl rfl), under_nodePos_iff.2 ⟨hge, hp.le⟩, hp.ne⟩
  · rw [← Bool.not_eq_true, hapart.isCompacted_iff]
    rintro ⟨r, hr, hunder, hne⟩
    rcases mem_addPrunedRoot.1 hr with rfl | hr
    · exact hne rfl
    · have := hlt r hr
      have := hunder.2
      omega

end PruneList

/-! ### Reading and growing a file with gaps -/

namespace MMRHashUtil

variable {G : Global} {l : PruneList} {full : List Hash} {ls : List (List UInt8)}
  {size p n fuel : ℕ} {hash : Hash}

/-- **Reading** a hash that is there. -/
theorem getHashAt_keep (h : l.Apart) (hnot : l.isCompacted p = false) (hp : p < size)
    (hfull : full[p]? = some hash) :
    getHashAt (keep l.isCompacted (full.take size)) p (some l) = .ok hash := by
  rw [getHashAt, if_neg (by rw [hnot]; exact Bool.false_ne_true), getDataAt,
    h.getShift_eq_countGone hnot, getElem?_keep hnot, List.getElem?_take_of_lt hp, hfull]
  rfl

/-- **Writing** the hash of the next position. -/
theorem keep_take_succ {gone : ℕ → Bool} (hnot : gone size = false)
    (hfull : full[size]? = some hash) :
    keep gone (full.take (size + 1)) = keep gone (full.take size) ++ [hash] := by
  obtain ⟨hlt, rfl⟩ := List.getElem?_eq_some_iff.1 hfull
  have hlength : (full.take size).length = size := by
    rw [List.length_take, Nat.min_eq_left hlt.le]
  rw [List.take_add_one, List.getElem?_eq_getElem hlt, Option.toList_some,
    keep_concat (by rwa [hlength])]

/-- The children of a position behind the pruned roots are there. -/
theorem children_not_compacted (h : l.Apart) (hlt : ∀ r ∈ l.prunedRoots, r < p) {k : ℕ}
    (hk : height p = k + 1) :
    l.isCompacted (p - 2 ^ (k + 1)) = false ∧ l.isCompacted (p - 1) = false := by
  constructor
  · rw [← Bool.not_eq_true, h.isCompacted_iff]
    rintro ⟨r, hr, hunder, hne⟩
    exact hne (Under.eq_of_left_child hk (hlt r hr) hunder).symm
  · rw [← Bool.not_eq_true, h.isCompacted_iff]
    rintro ⟨r, hr, hunder, hne⟩
    have := hlt r hr
    have := hunder.2
    omega

/-- The entry of a parent is the hash of its children. -/
theorem parent_eq (hrange : IsRangeOf G full ls) {k : ℕ} (hk : height p = k + 1)
    (hp : p < full.length) : ∃ left right, full[p - 2 ^ (k + 1)]? = some left ∧
      full[p - 1]? = some right ∧ p - 2 ^ (k + 1) < p ∧ p - 1 < p ∧
      full[p]? = some (hashParentWithIndex G left right p) := by
  obtain ⟨hge, -, -⟩ := height_children hk
  have h2 : 0 < 2 ^ k := Nat.two_pow_pos k
  have h3 := two_pow_add_two k
  have hl : p - 2 ^ (k + 1) < full.length := by omega
  have hr : p - 1 < full.length := by omega
  have hleft := List.getElem?_eq_getElem hl
  have hright := List.getElem?_eq_getElem hr
  exact ⟨_, _, hleft, hright, by omega, by omega, hrange.parent p k hp hk _ _ hleft hright⟩

/-- The parents of a leaf are at most as many as the leaves in front of it. -/
theorem leafPos_succ_le (n : ℕ) : leafPos (n + 1) ≤ leafPos n + n + 1 := by
  have h1 := ones_le n
  have h2 : 0 < ones (n + 1) := ones_pos (Nat.succ_pos _)
  have h3 := ones_le (n + 1)
  rw [leafPos, leafPos]
  omega

/-- **The parents of a leaf** are those of the plain range. -/
theorem addParents_keep (h : l.Apart) (hrange : IsRangeOf G full ls) (hlen : ls.length = n + 1)
    (hlt : ∀ r ∈ l.prunedRoots, r < size) (hfrom : leafPos n < size)
    (hto : size ≤ leafPos (n + 1)) (hfuel : leafPos (n + 1) < size + fuel) :
    addParents G (some l) fuel (keep l.isCompacted (full.take size)) size =
      .ok (keep l.isCompacted full) := by
  have hlength : full.length = leafPos (n + 1) := by rw [hrange.length_eq, hlen]
  induction fuel generalizing size with
  | zero => omega
  | succ fuel ih =>
    rw [addParents, Index.calculateHeight]
    rcases hto.eq_or_lt with rfl | hlt'
    · rw [height_leafPos, if_pos rfl, ← hlength, List.take_length]
    · obtain ⟨k, hk⟩ := Nat.exists_eq_succ_of_ne_zero (height_pos_of_between hfrom hlt').ne'
      obtain ⟨left, right, hleft, hright, hl, hr, hparent⟩ :=
        parent_eq hrange hk (by omega : size < full.length)
      obtain ⟨hnotl, hnotr⟩ := children_not_compacted h hlt hk
      rw [hk, if_neg (Nat.succ_ne_zero k), Index.getLeftChild, Index.getRightChild,
        getHashAt_keep h hnotl hl hleft, getHashAt_keep h hnotr hr hright]
      have hnext := @ih (size + 1) (fun r hr => (hlt r hr).trans (Nat.lt_succ_self _))
        (by omega) hlt' (by omega)
      rwa [keep_take_succ (PruneList.isCompacted_of_lt hlt) hparent] at hnext

/-- **Adding a leaf** to a range with gaps adds it to the plain range. -/
theorem addHashes_keep (h : l.Apart) (hrange : IsRangeOf G full ls) (hlen : ls.length = n + 1)
    (hlt : ∀ r ∈ l.prunedRoots, r < leafPos n) {leaf : List UInt8} (hleaf : ls[n]? = some leaf) :
    addHashes G (keep l.isCompacted (full.take (leafPos n))) leaf (some l) =
      .ok (keep l.isCompacted full) := by
  have hsucc := leafPos_lt_succ n
  have hlength : full.length = leafPos (n + 1) := by rw [hrange.length_eq, hlen]
  have hshift := h.getTotalShift_eq_countGone hlt
  have hstored := length_keep l.isCompacted (full.take (leafPos n))
  rw [List.length_take, Nat.min_eq_left (by omega)] at hstored
  have hbound := leafPos_succ_le n
  have hle := le_leafPos n
  have hstep : addParents G (some l) (leafPos n + 2)
      (keep l.isCompacted (full.take (leafPos n + 1))) (leafPos n + 1) =
        .ok (keep l.isCompacted full) :=
    addParents_keep h hrange hlen (fun r hr => (hlt r hr).trans (Nat.lt_succ_self _))
      (Nat.lt_succ_self _) hsucc (by omega)
  rw [keep_take_succ (PruneList.isCompacted_of_lt hlt) (hrange.leaf n leaf hleaf)] at hstep
  rw [addHashes, Option.map_some, Option.getD_some, hshift, hstored]
  exact hstep

end MMRHashUtil

/-! ### Pruned subtrees -/

namespace PruneableFiles

variable {α : Type} (G : Global) (serialized : α → List UInt8)

/-- The parents that a pruned subtree closed: the loop of `PruneableMMR::AppendPrunedSubtree`. -/
def addPrunedParents (pruneList : PruneList) : ℕ → Hash → ℕ → List Hash → Except Exc (List Hash)
  | 0, _, _, file => .ok file
  | fuel + 1, currentHash, currentPosition, file =>
    let parent := currentPosition + 1
    let height := Index.calculateHeight parent
    if height = 0 then .ok file
    else if Index.getRightChild parent ≠ currentPosition then .ok file
    else do
      let leftHash ←
        MMRHashUtil.getHashAt file (Index.getLeftChild parent height) (some pruneList)
      let currentHash := hashParentWithIndex G leftHash currentHash parent
      addPrunedParents pruneList fuel currentHash parent (file ++ [currentHash])

/-- `PruneableMMR::AppendPrunedSubtree`. -/
def appendPrunedSubtree (hash : Hash) (position : ℕ) (f : PruneableFiles α) :
    Except Exc (PruneableFiles α) := do
  let pruneList := f.pruneList.addPrunedRoot position
  let hashFile ← addPrunedParents G pruneList (position + 2) hash position (f.hashFile ++ [hash])
  .ok { f with
    pruneList := pruneList
    hashFile := hashFile }

/-! ### The plain range behind the files -/

/-- **The files are those of a plain range, with gaps.** -/
structure Mirrors (f : PruneableFiles α) (leaves : List α) : Prop where
  /-- The pruned trees are apart. -/
  apart : f.pruneList.Apart
  /-- The pruned trees are inside of the range. -/
  roots_lt : ∀ r ∈ f.pruneList.prunedRoots, r < leafPos leaves.length
  /-- The hashes are those of the leaves, without the ones that are compacted. -/
  hashFile : ∀ full, IsRangeOf G full (leaves.map serialized) →
    f.hashFile = keep f.pruneList.isCompacted full
  /-- The data file has the leaves that are not compacted. -/
  dataFile : f.dataFile = keep (fun i => f.pruneList.isCompacted (leafPos i)) leaves
  /-- Every unspent leaf exists. -/
  leafSet_lt : ∀ i, f.leafSet i = true → i < leaves.length
  /-- No unspent leaf is compacted. -/
  unspent : ∀ i, f.leafSet i = true → f.pruneList.isCompacted (leafPos i) = false

variable {G serialized} {f f' : PruneableFiles α} {leaves : List α} {n m : ℕ}

/-- A range that was never pruned is its own plain range. -/
theorem RangeOf.mirrors (h : RangeOf G serialized f leaves) : Mirrors G serialized f leaves where
  apart := h.pruneList_eq ▸ PruneList.apart_empty
  roots_lt := by
    intro r hr
    rw [h.pruneList_eq] at hr
    cases hr
  hashFile full hfull := by
    rw [h.range.unique hfull, h.pruneList_eq]
    exact (keep_eq_self fun _ _ => rfl).symm
  dataFile := by
    rw [h.dataFile_eq, h.pruneList_eq]
    exact (keep_eq_self fun _ _ => rfl).symm
  leafSet_lt := h.leafSet_lt
  unspent i _ := by
    rw [h.pruneList_eq]
    rfl

theorem Mirrors.totalShift (h : Mirrors G serialized f leaves) :
    f.pruneList.getTotalShift = countGone f.pruneList.isCompacted (leafPos leaves.length) :=
  h.apart.getTotalShift_eq_countGone h.roots_lt

theorem Mirrors.length_hashFile (h : Mirrors G serialized f leaves) :
    f.hashFile.length + countGone f.pruneList.isCompacted (leafPos leaves.length) =
      leafPos leaves.length := by
  obtain ⟨full, hfull⟩ := exists_isRangeOf G (leaves.map serialized)
  have hstored := length_keep f.pruneList.isCompacted full
  rwa [← h.hashFile full hfull, hfull.length_eq, List.length_map] at hstored

/-- **The size** is the one of all leaves. -/
theorem Mirrors.getSize_eq (h : Mirrors G serialized f leaves) :
    f.getSize = leafPos leaves.length := by
  rw [getSize, h.totalShift, Nat.add_comm]
  exact h.length_hashFile

/-- **Appending** a leaf. -/
theorem Mirrors.append_ok (h : Mirrors G serialized f leaves) (x : α) :
    ∃ f', f.append G serialized x = .ok f' ∧ Mirrors G serialized f' (leaves ++ [x]) ∧
      f'.leafSet = LeafSet.add leaves.length f.leafSet ∧ f'.pruneList = f.pruneList := by
  obtain ⟨full, hfull⟩ := exists_isRangeOf G ((leaves ++ [x]).map serialized)
  have hlen : ((leaves ++ [x]).map serialized).length = leaves.length + 1 := by simp
  have hleaf : ((leaves ++ [x]).map serialized)[leaves.length]? = some (serialized x) := by simp
  have htake : IsRangeOf G (full.take (leafPos leaves.length)) (leaves.map serialized) := by
    have := hfull.take leaves.length (by omega)
    rwa [List.map_append, List.take_left' (List.length_map _)] at this
  have hadd := addHashes_keep h.apart hfull hlen h.roots_lt hleaf
  rw [← h.hashFile _ htake] at hadd
  have hindex : Index.calculateLeafIndex f.getSize = leaves.length := by
    rw [h.getSize_eq, calculateLeafIndex_leafPos]
  have hnot := PruneList.isCompacted_of_lt h.roots_lt
  rw [append, hadd, hindex]
  refine ⟨_, rfl, ⟨h.apart, fun r hr => ?_, fun full' hfull' => ?_, ?_, fun i hi => ?_,
    fun i hi => ?_⟩, rfl, rfl⟩
  · rw [List.length_append, List.length_singleton]
    exact (h.roots_lt r hr).trans (leafPos_lt_succ _)
  · rw [hfull.unique hfull']
  · change f.dataFile ++ [x] = _
    rw [keep_concat hnot, h.dataFile]
  · rw [List.length_append, List.length_singleton]
    by_cases heq : i = leaves.length
    · omega
    · have := h.leafSet_lt i (by simpa [LeafSet.add, heq] using hi)
      omega
  · by_cases heq : i = leaves.length
    · rw [heq]
      exact hnot
    · exact h.unspent i (by simpa [LeafSet.add, heq] using hi)

/-- **Removing** a leaf that is unspent; any other one is refused. -/
theorem Mirrors.remove_eq (h : Mirrors G serialized f leaves) (i : ℕ) :
    if f.leafSet i then
      ∃ f', f.remove i = .ok f' ∧ Mirrors G serialized f' leaves ∧
        f'.leafSet = LeafSet.remove i f.leafSet ∧ f'.pruneList = f.pruneList
    else f.remove i = .error (.txHashSet "LeafSet does not contain output") := by
  rw [remove]
  split
  · have hsub : ∀ j, LeafSet.remove i f.leafSet j = true → f.leafSet j = true := by
      intro j hj
      by_cases heq : j = i
      · simp [LeafSet.remove, heq] at hj
      · simpa [LeafSet.remove, heq] using hj
    exact ⟨_, rfl, ⟨h.apart, h.roots_lt, h.hashFile, h.dataFile,
      fun j hj => h.leafSet_lt j (hsub j hj), fun j hj => h.unspent j (hsub j hj)⟩, rfl, rfl⟩
  · rfl

/-- **Rewinding** to a number of leaves that lie behind the pruned trees. -/
theorem Mirrors.rewind_ok (h : Mirrors G serialized f leaves) (hm : m ≤ leaves.length)
    (hroots : ∀ r ∈ f.pruneList.prunedRoots, r < leafPos m) {leavesToAdd : List ℕ}
    (hadd : ∀ i ∈ leavesToAdd, f.pruneList.isCompacted (leafPos i) = false) :
    ∃ f', f.rewind m leavesToAdd = .ok f' ∧ Mirrors G serialized f' (leaves.take m) ∧
      f'.leafSet = LeafSet.rewind m leavesToAdd f.leafSet ∧ f'.pruneList = f.pruneList := by
  obtain ⟨full, hfull⟩ := exists_isRangeOf G (leaves.map serialized)
  have hlength : full.length = leafPos leaves.length := by
    rw [hfull.length_eq, List.length_map]
  have hmono : leafPos m ≤ full.length := by
    rw [hlength]
    exact leafPos_strictMono.monotone hm
  obtain ⟨hshift, hleafShift⟩ := h.apart.shifts_decrement hroots
  have hle := countGone_le f.pruneList.isCompacted (leafPos m)
  have hle' := countGone_le (fun i => f.pruneList.isCompacted (leafPos i)) m
  -- the files are long enough, as what is gone is gone from the front
  have hhash : rewindFile (leafPos m - countGone f.pruneList.isCompacted (leafPos m)) f.hashFile =
      .ok (keep f.pruneList.isCompacted (full.take (leafPos m))) := by
    have hstored := length_keep f.pruneList.isCompacted (full.take (leafPos m))
    rw [List.length_take, Nat.min_eq_left hmono, ← take_keep hmono, List.length_take] at hstored
    rw [rewindFile, h.hashFile full hfull, if_neg (by omega), take_keep hmono]
  have hdata : rewindFile (m - countGone (fun i => f.pruneList.isCompacted (leafPos i)) m)
      f.dataFile = .ok (keep (fun i => f.pruneList.isCompacted (leafPos i)) (leaves.take m)) := by
    have hstored := length_keep (fun i => f.pruneList.isCompacted (leafPos i))
      (leaves.take m)
    rw [List.length_take, Nat.min_eq_left hm, ← take_keep hm, List.length_take] at hstored
    rw [rewindFile, h.dataFile, if_neg (by omega), take_keep hm]
  rw [rewind, leafPosition, hshift, hleafShift, sub64, if_pos hle, sub64, if_pos hle', hhash,
    hdata]
  have htake : (leaves.take m).length = m := by rw [List.length_take, Nat.min_eq_left hm]
  refine ⟨_, rfl, ⟨h.apart, ?_, fun full' hfull' => ?_, rfl, fun i hi => ?_, fun i hi => ?_⟩,
    rfl, rfl⟩
  · rwa [htake]
  · have hrange := hfull.take m (by rwa [List.length_map])
    rw [← List.map_take] at hrange
    rw [hfull'.unique hrange]
  · simp only [LeafSet.rewind, Bool.and_eq_true, decide_eq_true_eq] at hi
    rw [htake]
    exact hi.1
  · simp only [LeafSet.rewind, Bool.and_eq_true, Bool.or_eq_true, List.contains_iff_mem] at hi
    exact hi.2.elim (h.unspent i) (hadd i)

/-- **The parents of a pruned subtree** are those of the plain range. -/
theorem addPrunedParents_keep {l : PruneList} {full : List Hash} {ls : List (List UInt8)}
    {position : ℕ} (fuel : ℕ) {hash : Hash} (h : l.Apart) (hrange : IsRangeOf G full ls)
    (hlen : ls.length = n + 1) (hlt : ∀ r ∈ l.prunedRoots, r ≤ position)
    (hhash : full[position]? = some hash) (hfrom : leafPos n ≤ position)
    (hto : position < leafPos (n + 1)) (hfuel : leafPos (n + 1) ≤ position + fuel) :
    addPrunedParents G l fuel hash position (keep l.isCompacted (full.take (position + 1))) =
      .ok (keep l.isCompacted full) := by
  have hlength : full.length = leafPos (n + 1) := by rw [hrange.length_eq, hlen]
  induction fuel generalizing position hash with
  | zero => omega
  | succ fuel ih =>
    have hlt' : ∀ r ∈ l.prunedRoots, r < position + 1 := fun r hr => Nat.lt_succ_of_le (hlt r hr)
    rw [addPrunedParents, Index.calculateHeight]
    rcases (Nat.succ_le_of_lt hto).eq_or_lt with heq | hnext
    · rw [show position + 1 = leafPos (n + 1) from heq]
      dsimp only
      rw [height_leafPos, if_pos rfl, ← hlength, List.take_length]
    · have hnext' : position + 1 < leafPos (n + 1) := hnext
      obtain ⟨k, hk : height (position + 1) = k + 1⟩ := Nat.exists_eq_succ_of_ne_zero
        (height_pos_of_between (Nat.lt_succ_of_le hfrom) hnext').ne'
      obtain ⟨left, right, hleft, hright, hl, -, hparent⟩ :=
        parent_eq hrange hk (by omega : position + 1 < full.length)
      obtain ⟨hnotl, -⟩ := children_not_compacted h hlt' hk
      -- the right child is the node that was written last
      rw [Nat.add_sub_cancel, hhash] at hright
      obtain rfl := Option.some.inj hright
      dsimp only
      rw [hk, if_neg (Nat.succ_ne_zero k), Index.getRightChild, Nat.add_sub_cancel,
        if_neg (by simp), Index.getLeftChild, getHashAt_keep h hnotl hl hleft]
      have hrest := ih (fun r hr => (hlt r hr).trans (Nat.le_succ _)) hparent
        (hfrom.trans (Nat.le_succ _)) hnext' (by omega)
      rwa [keep_take_succ (PruneList.isCompacted_of_lt hlt') hparent] at hrest

/-- **Appending a pruned subtree**: its leaves are those with the hash that is given. -/
theorem Mirrors.appendPrunedSubtree_ok (h : Mirrors G serialized f leaves) {k j : ℕ} (hk : 1 ≤ k)
    (hstart : leaves.length = 2 ^ k * j) {sub : List α} (hsub : sub.length = 2 ^ k) {hash : Hash}
    (htree : treeRoot (nodeHash G) k (leafPos leaves.length) (sub.map serialized) = some hash) :
    ∃ f', f.appendPrunedSubtree G hash (nodePos k j) = .ok f' ∧
      Mirrors G serialized f' (leaves ++ sub) ∧ f'.leafSet = f.leafSet ∧
      f'.pruneList.prunedRoots = f.pruneList.prunedRoots ++ [nodePos k j] := by
  have hpos : 0 < 2 ^ k := Nat.two_pow_pos k
  have hlt : ∀ r ∈ f.pruneList.prunedRoots, r < leafPos (2 ^ k * j) := hstart ▸ h.roots_lt
  have hroot := nodePos_eq_leafPos_add k j
  have hlast := nodePos_eq_last_leafPos_add k j
  have hheight := height_nodePos k j
  have hend : 2 ^ k * (j + 1) - 1 + 1 = 2 ^ k * (j + 1) := by
    have : 0 < 2 ^ k * (j + 1) := Nat.mul_pos hpos (Nat.succ_pos j)
    omega
  have hcount : 2 ^ k * (j + 1) = leaves.length + 2 ^ k := by rw [hstart, Nat.mul_succ]
  obtain ⟨full, hfull⟩ := exists_isRangeOf G ((leaves ++ sub).map serialized)
  have hlen : ((leaves ++ sub).map serialized).length = 2 ^ k * (j + 1) := by
    rw [List.length_map, List.length_append, hsub, hcount]
  have htake : IsRangeOf G (full.take (leafPos leaves.length)) (leaves.map serialized) := by
    have := hfull.take leaves.length (by omega)
    rwa [List.map_append, List.take_left' (List.length_map _)] at this
  -- the hash stands at the root of the subtree
  have hhash : full[nodePos k j]? = some hash := by
    obtain ⟨r, hr, hat⟩ := hfull.tree (k := k) (a := j) (by omega)
    rw [List.map_append, ← hstart, List.drop_left' (List.length_map _),
      List.take_of_length_le (by rw [List.length_map, hsub]), htree] at hr
    obtain rfl := Option.some.inj hr
    rw [hroot]
    exact hat
  obtain ⟨hbefore, hunder, hself⟩ := h.apart.isCompacted_addPrunedRoot hlt
  have hrootlt : nodePos k j < leafPos (2 ^ k * (j + 1)) := nodePos_lt_leafPos_iff.2 le_rfl
  have hlength : full.length = leafPos (2 ^ k * (j + 1)) := by rw [hfull.length_eq, hlen]
  have hle : leafPos (2 ^ k * j) ≤ nodePos k j := by omega
  -- of what is under the root nothing is stored, so the root comes next
  have happend : f.hashFile ++ [hash] =
      keep (f.pruneList.addPrunedRoot (nodePos k j)).isCompacted (full.take (nodePos k j + 1)) := by
    rw [keep_take_succ hself hhash, h.hashFile _ htake, hstart]
    congr 1
    have hsplit : full.take (nodePos k j) = full.take (leafPos (2 ^ k * j)) ++
        (full.take (nodePos k j)).drop (leafPos (2 ^ k * j)) := by
      conv_lhs => rw [← List.take_append_drop (leafPos (2 ^ k * j)) (full.take (nodePos k j)),
        List.take_take, Nat.min_eq_left hle]
    have hfront : (full.take (leafPos (2 ^ k * j))).length = leafPos (2 ^ k * j) := by
      rw [List.length_take, Nat.min_eq_left (by omega)]
    rw [hsplit, keep_append, hfront, keepFrom_eq_nil (fun p hge hp => hunder p hge (by
      rw [List.length_drop, List.length_take] at hp
      omega)), List.append_nil]
    exact keep_congr fun p hp => (hbefore p (by omega)).symm
  -- the parents that the subtree completes are all there
  have hrun := addPrunedParents_keep (nodePos k j + 2) (h.apart.addPrunedRoot hlt) hfull
    (hlen.trans hend.symm)
    (fun r hr => (PruneList.mem_addPrunedRoot.1 hr).elim (fun h => h.le) fun hr => by
      have := hlt r hr
      omega) hhash (by omega) (by rwa [hend]) (by
      have h1 := leafPos_succ_le (2 ^ k * (j + 1) - 1)
      have h2 := le_leafPos (2 ^ k * (j + 1) - 1)
      omega)
  rw [← happend] at hrun
  rw [appendPrunedSubtree, hrun]
  refine ⟨_, rfl, ⟨h.apart.addPrunedRoot hlt, fun r hr => ?_, fun full' hfull' => ?_, ?_,
    fun i hi => ?_, fun i hi => ?_⟩, rfl,
    PruneList.addPrunedRoot_of_lt fun r hr => (hlt r hr).trans_le hle⟩
  · rw [List.length_append, hsub, ← hcount]
    rcases PruneList.mem_addPrunedRoot.1 hr with rfl | hr
    · exact hrootlt
    · have := hlt r hr
      omega
  · rw [hfull.unique hfull']
  · rw [keep_append, keepFrom_eq_nil, List.append_nil]
    · rw [h.dataFile]
      exact keep_congr fun i hi => (hbefore _ (leafPos_strictMono (hstart ▸ hi))).symm
    · intro i hge hi
      refine hunder _ (leafPos_strictMono.monotone (hstart ▸ hge)) ?_
      refine lt_of_le_of_ne ?_ fun heq => ?_
      · exact leafPos_le_nodePos_iff.2 (by omega)
      · rw [← heq, height_leafPos] at hheight
        omega
  · rw [List.length_append]
    have := h.leafSet_lt i hi
    omega
  · rw [hbefore _ (leafPos_strictMono (hstart ▸ h.leafSet_lt i hi))]
    exact h.unspent i hi

/-! ### What is read -/

/-- **A leaf is given back** unless it is compacted. -/
theorem Mirrors.getDataAt_eq (h : Mirrors G serialized f leaves) (i : ℕ) :
    f.getDataAt i = if f.pruneList.isCompacted (leafPos i) then none else leaves[i]? := by
  rw [getDataAt, h.getSize_eq, leafPosition]
  cases hnot : f.pruneList.isCompacted (leafPos i) with
  | true => rw [if_pos (.inr rfl), if_pos rfl]
  | false =>
    have hread : (keep (fun i => f.pruneList.isCompacted (leafPos i)) leaves)[i -
        countGone (fun i => f.pruneList.isCompacted (leafPos i)) i]? = leaves[i]? :=
      getElem?_keep hnot
    rw [if_neg Bool.false_ne_true, h.apart.getLeafShift_eq_countGone hnot (.inr rfl), h.dataFile,
      hread]
    split
    · next hle =>
      have hge := leafPos_strictMono.le_iff_le.1 (hle.resolve_right Bool.false_ne_true)
      rw [List.getElem?_eq_none hge]
    · rfl

/-- **An unspent leaf is given back**, and no other one. -/
theorem Mirrors.getAt_eq (h : Mirrors G serialized f leaves) (i : ℕ) :
    f.getAt i = if f.leafSet i then leaves[i]? else none := by
  rw [getAt, isUnpruned, h.getDataAt_eq, h.getSize_eq, leafPosition]
  cases hi : f.leafSet i with
  | false =>
    rw [Bool.and_false, if_neg Bool.false_ne_true, if_neg Bool.false_ne_true]
  | true =>
    rw [h.unspent i hi, decide_eq_true (leafPos_strictMono (h.leafSet_lt i hi)), Bool.true_and,
      if_pos rfl, if_pos rfl, if_neg Bool.false_ne_true]

variable {full : List Hash}

/-- **A hash is given back** unless it is compacted. -/
theorem Mirrors.getHashAt_eq (h : Mirrors G serialized f leaves)
    (hfull : IsRangeOf G full (leaves.map serialized)) {p : ℕ} (hp : p < full.length) :
    f.getHashAt p = .ok (if f.pruneList.isCompacted p then none else full[p]?) := by
  rw [getHashAt]
  cases hnot : f.pruneList.isCompacted p with
  | true => rfl
  | false =>
    have hread := getHashAt_keep h.apart hnot hp (List.getElem?_eq_getElem hp)
    rw [List.take_length, ← h.hashFile full hfull] at hread
    rw [if_neg Bool.false_ne_true, hread, if_neg Bool.false_ne_true, List.getElem?_eq_getElem hp]
    rfl

/-- **The root** at a size that cuts through no pruned tree is the one of the plain range. The
peaks are read without asking whether they are compacted, so at any other size the hash of some
other node is taken for the one that is missing. -/
theorem Mirrors.root_eq (h : Mirrors G serialized f leaves)
    (hfull : IsRangeOf G full (leaves.map serialized))
    (hcut : ∀ r ∈ f.pruneList.prunedRoots, ∀ p < leafPos m, Under p r → r < leafPos m) :
    f.root G (leafPos m) = MMRHashUtil.root G full (leafPos m) none := by
  have hread : ∀ peaks : List ℕ, (∀ p ∈ peaks, f.pruneList.isCompacted p = false) →
      peakHashes f.hashFile (some f.pruneList) peaks = peakHashes full none peaks := by
    intro peaks hpeaks
    induction peaks with
    | nil => rfl
    | cons peak peaks ih =>
      have hnot := hpeaks peak List.mem_cons_self
      rw [peakHashes, peakHashes, ih fun p hp => hpeaks p (List.mem_cons_of_mem _ hp),
        MMRHashUtil.getDataAt, MMRHashUtil.getDataAt, getShiftedIndex, getShiftedIndex,
        h.apart.getShift_eq_countGone hnot, h.hashFile full hfull, getElem?_keep hnot]
  rw [root, MMRHashUtil.root, MMRHashUtil.root, hread]
  intro p hp
  rw [getPeakIndices_leafPos] at hp
  have hlt : p < leafPos m := by
    have := (peaksFrom_bounds hp).2
    omega
  rw [← Bool.not_eq_true, h.apart.isCompacted_iff]
  rintro ⟨r, hr, hunder, hne⟩
  have hrlt := hcut r hr p hlt hunder
  exact hne (eq_of_under_peak (lt_two_pow_bitLength_leafPos m) hp hrlt hunder).symm

end PruneableFiles

end GrinPlusPlus
