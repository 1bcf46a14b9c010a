import GrinPlusPlus.Core.SmallNet
import GrinPlusPlus.Pmmr.CompactedRange

/-!
# Runs over a pruned range

What a pruneable range is for, without its files: the list of all leaves, which of them are
unspent, and which trees were given by their hash only (`GrinPlusPlus.PlainMMR`). An append, a
pruned subtree, a spent leaf and a rewind each do one thing to it, and a batch of them is made
permanent or dropped as a whole.

Every such run can be followed by the files, without any failure, and after it **whatever is read
from the files is read off the list**: `GrinPlusPlus.PruneableMMR.run_observes`. The one delicate
thing is a pruned subtree. Its leaves are never seen, so the run of the list may take any leaves
with the hash that came in, and the theorem holds for each choice; where the hash is injective
there is one choice only, and the root of the files binds it
(`GrinPlusPlus.PruneableMMR.leaves_eq_of_root_eq`).
-/

namespace GrinPlusPlus

open PostOrder Mountain MMRHashUtil Compact

/-- A plain range, with what a pruned one has to know besides. -/
structure PlainMMR (α : Type) where
  /-- All leaves, whether they were seen or not. -/
  leaves : List α
  /-- The leaves that are unspent. -/
  unspent : ℕ → Bool
  /-- The height and the place of each tree that was given by its hash. -/
  pruned : List (ℕ × ℕ)

/-- What is done to a pruneable range. -/
inductive PruneableOp (α : Type)
  /-- `PruneableMMR::Append`. -/
  | append (object : α)
  /-- `PruneableMMR::AppendPrunedSubtree`. -/
  | appendPrunedSubtree (hash : Hash) (position : ℕ)
  /-- `PruneableMMR::Remove`. -/
  | remove (leafIndex : ℕ)
  /-- `PruneableMMR::Rewind`. -/
  | rewind (numLeaves : ℕ) (leavesToAdd : List ℕ)
  /-- `PruneableMMR::Commit`. -/
  | commit
  /-- `PruneableMMR::Rollback`. -/
  | rollback

namespace PlainMMR

variable {α : Type}

/-- No leaves. -/
def empty : PlainMMR α :=
  ⟨[], fun _ => false, []⟩

/-- The leaf was given by the hash of its tree. -/
def hidden (s : PlainMMR α) (leafIndex : ℕ) : Bool :=
  s.pruned.any fun t => decide (leafIndex / 2 ^ t.1 = t.2)

/-- The position is in a tree that was given by its hash, and not its root. -/
def missing (s : PlainMMR α) (position : ℕ) : Bool :=
  s.pruned.any fun t =>
    decide (leafPos (2 ^ t.1 * t.2) ≤ position ∧ position < nodePos t.1 t.2)

variable (G : Global) (serialized : α → List UInt8)

/-- **What each operation does** to the list, and when it may be asked for. -/
inductive Step : PruneableOp α → PlainMMR α → PlainMMR α → Prop
  /-- Any leaf can be appended. -/
  | append (s : PlainMMR α) (object : α) : Step (.append object) s
      { s with
        leaves := s.leaves ++ [object]
        unspent := LeafSet.add s.leaves.length s.unspent }
  /-- A tree that begins where the range ends, with the hash of some leaves. -/
  | appendPrunedSubtree (s : PlainMMR α) {k j : ℕ} {sub : List α} {hash : Hash} (hk : 1 ≤ k)
      (hstart : s.leaves.length = 2 ^ k * j) (hsub : sub.length = 2 ^ k)
      (htree : treeRoot (nodeHash G) k (leafPos s.leaves.length) (sub.map serialized) =
        some hash) : Step (.appendPrunedSubtree hash (nodePos k j)) s
      { s with
        leaves := s.leaves ++ sub
        pruned := s.pruned ++ [(k, j)] }
  /-- A leaf that is unspent. -/
  | remove (s : PlainMMR α) {i : ℕ} (h : s.unspent i = true) : Step (.remove i) s
      { s with unspent := LeafSet.remove i s.unspent }
  /-- To a number of leaves behind the pruned trees; what becomes unspent was seen. -/
  | rewind (s : PlainMMR α) {m : ℕ} {leavesToAdd : List ℕ} (hm : m ≤ s.leaves.length)
      (hpruned : ∀ t ∈ s.pruned, 2 ^ t.1 * (t.2 + 1) ≤ m)
      (hadd : ∀ i ∈ leavesToAdd, s.hidden i = false) : Step (.rewind m leavesToAdd) s
      { s with
        leaves := s.leaves.take m
        unspent := LeafSet.rewind m leavesToAdd s.unspent }

/-- Operations in batches. -/
inductive Runs : List (PruneableOp α) → Batch (PlainMMR α) → Batch (PlainMMR α) → Prop
  | nil (b : Batch (PlainMMR α)) : Runs [] b b
  | write {op : PruneableOp α} {ops : List (PruneableOp α)} {b b' : Batch (PlainMMR α)}
      {s : PlainMMR α} (h : Step G serialized op b.current s)
      (hrest : Runs ops (b.write fun _ => s) b') : Runs (op :: ops) b b'
  | commit {ops : List (PruneableOp α)} {b b' : Batch (PlainMMR α)} (hrest : Runs ops b.commit b') :
      Runs (.commit :: ops) b b'
  | rollback {ops : List (PruneableOp α)} {b b' : Batch (PlainMMR α)}
      (hrest : Runs ops b.rollback b') : Runs (.rollback :: ops) b b'

end PlainMMR

/-! ### The files follow -/

namespace PruneableMMR

variable {α : Type} (G : Global) (serialized : α → List UInt8)

/-- A write to the files. -/
def writeFiles (op : PruneableFiles α → Except Exc (PruneableFiles α)) (mmr : PruneableMMR α) :
    Except Exc (PruneableMMR α) := do
  let files ← op mmr.current
  .ok (mmr.write fun _ => files)

/-- One operation. -/
def apply : PruneableOp α → PruneableMMR α → Except Exc (PruneableMMR α)
  | .append object, mmr => writeFiles (PruneableFiles.append G serialized object) mmr
  | .appendPrunedSubtree hash position, mmr =>
    writeFiles (PruneableFiles.appendPrunedSubtree G hash position) mmr
  | .remove leafIndex, mmr => writeFiles (PruneableFiles.remove leafIndex) mmr
  | .rewind numLeaves leavesToAdd, mmr =>
    writeFiles (PruneableFiles.rewind numLeaves leavesToAdd) mmr
  | .commit, mmr => .ok mmr.commit
  | .rollback, mmr => .ok mmr.rollback

/-- One operation after the other. -/
def run : List (PruneableOp α) → PruneableMMR α → Except Exc (PruneableMMR α)
  | [], mmr => .ok mmr
  | op :: ops, mmr => do
    let mmr ← apply G serialized op mmr
    run ops mmr

/-- The files of an empty range. -/
def emptyFiles : PruneableFiles α :=
  ⟨[], fun _ => false, .empty, []⟩

/-- **The files stand for the plain range.** -/
structure Refines (f : PruneableFiles α) (s : PlainMMR α) : Prop
    extends PruneableFiles.Mirrors G serialized f s.leaves where
  /-- The same leaves are unspent. -/
  leafSet_eq : f.leafSet = s.unspent
  /-- The pruned roots are those of the trees that were given by their hash. -/
  roots_eq : f.pruneList.prunedRoots = s.pruned.map fun t => nodePos t.1 t.2
  /-- No tree was a leaf. -/
  height_pos : ∀ t ∈ s.pruned, 1 ≤ t.1

/-- **Whatever is read from the files is read off the list.** -/
structure Observes (f : PruneableFiles α) (s : PlainMMR α) : Prop where
  /-- The size. -/
  size : f.getSize = leafPos s.leaves.length
  /-- The data of a leaf. -/
  dataAt : ∀ i, f.getDataAt i = if s.hidden i then none else s.leaves[i]?
  /-- An unspent leaf. -/
  leafAt : ∀ i, f.getAt i = if s.unspent i then s.leaves[i]? else none
  /-- The hash of a node. -/
  hashAt : ∀ full, IsRangeOf G full (s.leaves.map serialized) → ∀ p < full.length,
    f.getHashAt p = .ok (if s.missing p then none else full[p]?)
  /-- The root at a size that cuts through no pruned tree. -/
  root : ∀ full, IsRangeOf G full (s.leaves.map serialized) → ∀ m ≤ s.leaves.length,
    (∀ t ∈ s.pruned, 2 ^ t.1 * (t.2 + 1) ≤ m ∨ m ≤ 2 ^ t.1 * t.2) →
    f.root G (leafPos m) = MMRHashUtil.root G full (leafPos m) none

variable {G serialized} {f : PruneableFiles α} {s s' : PlainMMR α}

theorem Refines.mem_roots (h : Refines G serialized f s) {r : ℕ} :
    r ∈ f.pruneList.prunedRoots ↔ ∃ t ∈ s.pruned, r = nodePos t.1 t.2 := by
  rw [h.roots_eq, List.mem_map]
  exact exists_congr fun t => and_congr_right fun _ => eq_comm

theorem Refines.isCompacted_eq (h : Refines G serialized f s) (p : ℕ) :
    f.pruneList.isCompacted p = s.missing p := by
  rw [Bool.eq_iff_iff, h.apart.isCompacted_iff, PlainMMR.missing, List.any_eq_true]
  constructor
  · rintro ⟨r, hr, hunder, hne⟩
    obtain ⟨t, ht, rfl⟩ := h.mem_roots.1 hr
    obtain ⟨hge, hle⟩ := PruneList.under_nodePos_iff.1 hunder
    exact ⟨t, ht, decide_eq_true ⟨hge, lt_of_le_of_ne hle hne⟩⟩
  · rintro ⟨t, ht, hp⟩
    obtain ⟨hge, hlt⟩ := of_decide_eq_true hp
    exact ⟨_, h.mem_roots.2 ⟨t, ht, rfl⟩, PruneList.under_nodePos_iff.2 ⟨hge, hlt.le⟩, hlt.ne⟩

/-- The leaves under a node. -/
theorem under_leafPos_iff {k j i : ℕ} : Under (leafPos i) (nodePos k j) ↔ i / 2 ^ k = j := by
  rw [PruneList.under_nodePos_iff, ← nodePos_zero i, below_iff, Nat.sub_zero]
  exact and_iff_right (Nat.zero_le k)

theorem Refines.isCompacted_leafPos (h : Refines G serialized f s) (i : ℕ) :
    f.pruneList.isCompacted (leafPos i) = s.hidden i := by
  rw [Bool.eq_iff_iff, h.apart.isCompacted_leafPos_iff, PlainMMR.hidden, List.any_eq_true]
  constructor
  · rintro ⟨r, hr, -, hunder⟩
    obtain ⟨t, ht, rfl⟩ := h.mem_roots.1 hr
    exact ⟨t, ht, decide_eq_true (under_leafPos_iff.1 hunder)⟩
  · rintro ⟨t, ht, hi⟩
    refine ⟨_, h.mem_roots.2 ⟨t, ht, rfl⟩, ?_, under_leafPos_iff.2 (of_decide_eq_true hi)⟩
    rw [height_nodePos]
    exact h.height_pos t ht

/-- **What is read** from files that stand for a plain range. -/
theorem Refines.observes (h : Refines G serialized f s) : Observes G serialized f s where
  size := h.getSize_eq
  dataAt i := by rw [h.getDataAt_eq, h.isCompacted_leafPos]
  leafAt i := by rw [h.getAt_eq, h.leafSet_eq]
  hashAt full hfull p hp := by rw [h.getHashAt_eq hfull hp, h.isCompacted_eq]
  root full hfull m _ hcut := by
    refine h.root_eq hfull fun r hr p hp hunder => ?_
    obtain ⟨t, ht, rfl⟩ := h.mem_roots.1 hr
    rcases hcut t ht with hle | hge
    · exact nodePos_lt_leafPos_iff.2 hle
    · have := leafPos_strictMono.monotone hge
      have := (PruneList.under_nodePos_iff.1 hunder).1
      omega

theorem refines_empty : Refines G serialized (α := α) emptyFiles .empty where
  toMirrors := PruneableFiles.RangeOf.mirrors
    { range := isRange_nil
      dataFile_eq := rfl
      pruneList_eq := rfl
      leafSet_lt := fun _ h => by cases h }
  leafSet_eq := rfl
  roots_eq := rfl
  height_pos _ ht := absurd ht List.not_mem_nil

/-- **One step**: what may be asked for succeeds, and the files follow the list. -/
theorem Refines.step {op : PruneableOp α} (hstep : PlainMMR.Step G serialized op s s')
    {mmr : PruneableMMR α} (h : Refines G serialized mmr.current s) :
    ∃ f', apply G serialized op mmr = .ok (mmr.write fun _ => f') ∧
      Refines G serialized f' s' := by
  cases hstep with
  | append _ object =>
    obtain ⟨f', hrun, hmirrors, hleafSet, hlist⟩ := h.append_ok object
    refine ⟨f', ?_, ⟨hmirrors, ?_, ?_, h.height_pos⟩⟩
    · rw [apply, writeFiles, hrun]
      rfl
    · rw [hleafSet, h.leafSet_eq]
    · rw [hlist, h.roots_eq]
  | appendPrunedSubtree _ hk hstart hsub htree =>
    obtain ⟨f', hrun, hmirrors, hleafSet, hlist⟩ :=
      h.appendPrunedSubtree_ok hk hstart hsub htree
    refine ⟨f', ?_, ⟨hmirrors, ?_, ?_, fun t ht => ?_⟩⟩
    · rw [apply, writeFiles, hrun]
      rfl
    · rw [hleafSet, h.leafSet_eq]
    · rw [hlist, h.roots_eq, List.map_append, List.map_singleton]
    · rcases List.mem_append.1 ht with ht | ht
      · exact h.height_pos t ht
      · rw [List.mem_singleton.1 ht]
        exact hk
  | @remove _ i hunspent =>
    have hremove := h.remove_eq i
    rw [h.leafSet_eq, if_pos hunspent] at hremove
    obtain ⟨f', hrun, hmirrors, hleafSet, hlist⟩ := hremove
    refine ⟨f', ?_, ⟨hmirrors, hleafSet, ?_, h.height_pos⟩⟩
    · rw [apply, writeFiles, hrun]
      rfl
    · rw [hlist, h.roots_eq]
  | rewind _ hm hpruned hadd =>
    obtain ⟨f', hrun, hmirrors, hleafSet, hlist⟩ := h.rewind_ok hm
      (fun r hr => by
        obtain ⟨t, ht, rfl⟩ := h.mem_roots.1 hr
        exact nodePos_lt_leafPos_iff.2 (hpruned t ht))
      (fun i hi => by
        rw [h.isCompacted_leafPos]
        exact hadd i hi)
    refine ⟨f', ?_, ⟨hmirrors, ?_, ?_, h.height_pos⟩⟩
    · rw [apply, writeFiles, hrun]
      rfl
    · rw [hleafSet, h.leafSet_eq]
    · rw [hlist, h.roots_eq]

/-- **A run** of batches. -/
theorem Refines.run {ops : List (PruneableOp α)} {b b' : Batch (PlainMMR α)}
    (hrun : PlainMMR.Runs G serialized ops b b') (mmr : PruneableMMR α)
    (h : Refines G serialized mmr.current b.current)
    (hcommitted : Refines G serialized mmr.committed b.committed) :
    ∃ mmr', PruneableMMR.run G serialized ops mmr = .ok mmr' ∧
      Refines G serialized mmr'.current b'.current ∧
      Refines G serialized mmr'.committed b'.committed := by
  induction hrun generalizing mmr with
  | nil => exact ⟨mmr, rfl, h, hcommitted⟩
  | write hstep _ ih =>
    obtain ⟨f', happly, hf'⟩ := h.step hstep
    obtain ⟨mmr', hrest, hresult⟩ := ih (mmr.write fun _ => f') hf' hcommitted
    refine ⟨mmr', ?_, hresult⟩
    rw [PruneableMMR.run, happly]
    exact hrest
  | @commit ops b b' _ ih =>
    exact ih _ (by rwa [Batch.commit_current, Batch.commit_current])
      (by rwa [Batch.commit_committed, Batch.commit_committed])
  | @rollback ops b b' _ ih =>
    exact ih _ (by rwa [Batch.rollback_current, Batch.rollback_current])
      (by rwa [Batch.rollback_committed, Batch.rollback_committed])

/-- **A pruneable range refines a plain one**: over any operations that may be asked for, in
batches that are committed or rolled back, none fails, and whatever is read from the files
afterwards is read off the list of all leaves. -/
theorem run_observes {ops : List (PruneableOp α)} {b : Batch (PlainMMR α)}
    (hrun : PlainMMR.Runs G serialized ops (.of .empty) b) :
    ∃ mmr, run G serialized ops (.of emptyFiles) = .ok mmr ∧
      Observes G serialized mmr.current b.current ∧
      Observes G serialized mmr.committed b.committed := by
  obtain ⟨mmr, hmmr, hcurrent, hcommitted⟩ :=
    Refines.run hrun (.of emptyFiles) refines_empty refines_empty
  exact ⟨mmr, hmmr, hcurrent.observes, hcommitted.observes⟩

/-- The hash of two leaves at the front of a range. -/
def twoLeaves (G : Global) (a b : List UInt8) : Hash :=
  nodeHash G 2 (.inr (nodeHash G 0 (.inl a), nodeHash G 1 (.inl b)))

/-- A pruned tree, a leaf behind it that is spent, and a leaf that is dropped again. -/
def sampleOps (G : Global) : List (PruneableOp (List UInt8)) :=
  [.appendPrunedSubtree (twoLeaves G [1] [2]) 2, .append [3], .remove 2, .commit, .append [4],
    .rollback]

theorem run_observes_sampleOps : ∃ b : Batch (PlainMMR (List UInt8)),
    b.current.leaves = [[1], [2], [3]] ∧
      ∃ mmr, run (smallNet .mainnet) id (sampleOps (smallNet .mainnet)) (.of emptyFiles) =
          .ok mmr ∧
        Observes (smallNet .mainnet) id mmr.current b.current ∧
        Observes (smallNet .mainnet) id mmr.committed b.committed := by
  refine ⟨_, ?_, run_observes (.write
    (.appendPrunedSubtree .empty (j := 0) le_rfl rfl (show [[1], [2]].length = 2 from rfl) rfl)
    (.write (.append _ [3]) (.write (.remove _ (by decide)) (.commit
      (.write (.append _ [4]) (.rollback (.nil _)))))))⟩
  rfl

/-- **The root binds the leaves** of two ranges of one size, those that were pruned as well: runs
that end in the same root had the same leaves, whatever each of them was given by hashes only. -/
theorem leaves_eq_of_root_eq (hG : G.InjectiveWithIndex) {ops ops' : List (PruneableOp α)}
    {b b' : Batch (PlainMMR α)} {mmr mmr' : PruneableMMR α}
    (hplain : PlainMMR.Runs G serialized ops (.of .empty) b)
    (hplain' : PlainMMR.Runs G serialized ops' (.of .empty) b')
    (hrun : run G serialized ops (.of emptyFiles) = .ok mmr)
    (hrun' : run G serialized ops' (.of emptyFiles) = .ok mmr')
    (hsize : mmr.current.getSize = mmr'.current.getSize)
    (hroot : mmr.current.root G mmr.current.getSize = mmr'.current.root G mmr'.current.getSize) :
    b.current.leaves.map serialized = b'.current.leaves.map serialized := by
  obtain ⟨_, hmmr, h, -⟩ :=
    Refines.run hplain (.of emptyFiles) refines_empty refines_empty
  obtain rfl := Except.ok.inj (hrun.symm.trans hmmr)
  obtain ⟨_, hmmr', h', -⟩ :=
    Refines.run hplain' (.of emptyFiles) refines_empty refines_empty
  obtain rfl := Except.ok.inj (hrun'.symm.trans hmmr')
  rw [h.getSize_eq, h'.getSize_eq] at hsize hroot
  have hlen : b.current.leaves.length = b'.current.leaves.length :=
    leafPos_strictMono.injective hsize
  obtain ⟨full, hfull⟩ := exists_isRangeOf G (b.current.leaves.map serialized)
  obtain ⟨full', hfull'⟩ := exists_isRangeOf G (b'.current.leaves.map serialized)
  -- at its own size a range cuts through no tree
  rw [h.root_eq hfull fun r hr _ _ _ => h.roots_lt r hr,
    h'.root_eq hfull' fun r hr _ _ _ => h'.roots_lt r hr] at hroot
  obtain ⟨r, hr⟩ := root_ok hfull
  rw [List.length_map] at hr
  refine MMRHashUtil.eq_of_root_eq hG hfull hfull' (by rw [List.length_map, List.length_map, hlen])
    (r := r) (by rwa [List.length_map]) ?_
  rw [List.length_map, hlen, ← hroot]
  exact hr

/-- Three leaves, two of which were given by their hash in one of the runs. -/
theorem leaves_eq_of_root_eq_threeLeaves : ∃ b b' : Batch (PlainMMR (List UInt8)),
    b.current.leaves.map id = b'.current.leaves.map id ∧
      b.current.pruned = [(1, 0)] ∧ b'.current.pruned = [] := by
  have hplain : PlainMMR.Runs (smallNet .mainnet) id
      [.appendPrunedSubtree (twoLeaves (smallNet .mainnet) [1] [2]) 2, .append [3]]
      (.of .empty) _ :=
    .write (.appendPrunedSubtree .empty (j := 0) le_rfl rfl
      (show [[1], [2]].length = 2 from rfl) rfl)
      (.write (.append _ [3]) (.nil _))
  have hplain' : PlainMMR.Runs (smallNet .mainnet) id
      [.append [1], .append [2], .append [3]] (.of .empty) _ :=
    .write (.append .empty [1]) (.write (.append _ [2]) (.write (.append _ [3]) (.nil _)))
  obtain ⟨mmr, hrun, h, -⟩ := run_observes hplain
  obtain ⟨mmr', hrun', h', -⟩ := run_observes hplain'
  obtain ⟨full, hfull⟩ := exists_isRangeOf (smallNet .mainnet) [[1], [2], [3]]
  have hsize : mmr.current.getSize = leafPos 3 := h.size
  have hsize' : mmr'.current.getSize = leafPos 3 := h'.size
  refine ⟨_, _, leaves_eq_of_root_eq (SmallNet.injectiveWithIndex .mainnet) hplain hplain' hrun
    hrun' (hsize.trans hsize'.symm) ?_, rfl, rfl⟩
  rw [hsize, hsize', h.root full hfull 3 (by decide) (by decide),
    h'.root full hfull 3 (by decide) (by decide)]

end PruneableMMR

end GrinPlusPlus
