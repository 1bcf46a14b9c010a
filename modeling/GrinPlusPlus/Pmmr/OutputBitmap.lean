import GrinPlusPlus.Core.SmallNet
import GrinPlusPlus.Pmmr.BitmapFile
import GrinPlusPlus.Pmmr.TxHashSet

/-!
# The three bitmaps of the outputs

Which outputs are unspent is hashed in three ways. `LeafSet::Root` reads the bytes of the file of
the leaf set; `BuildOutputBitmapCache` asks for each leaf whether it is there; and
`GetOutputBitmapAccumulator` keeps what was built, until the size of the range changes or a method
throws it away. `UpdateLeafSets` does neither: it puts the bitmap that it was given in the cache.

The state is the hash set with its cache (`GrinPlusPlus.CachedTxHashSet`), the runs are any
sequences of its methods. Two facts carry everything:

* no bit is set behind the last leaf, in the range and in its permanent copy
  (`GrinPlusPlus.CachedTxHashSet.Consistent.current`, `….committed`): it makes the raw bytes the
  bits of the leaves;
* what is in the cache was built for the range as it is
  (`GrinPlusPlus.CachedTxHashSet.Consistent.cached`).

`UpdateLeafSets` keeps the two only when it is given a bitmap with the chunks of the range and
without a bit behind its last leaf (`GrinPlusPlus.CachedTxHashSet.Fits`). It does not check that.
-/

namespace GrinPlusPlus

open PostOrder Mountain MMRHashUtil MMRUtil Exec

/-! ### The leaf set is replaced -/

namespace PruneableFiles

variable {α : Type}

/-- The loop of `PruneableMMR::UpdateLeafSet`. -/
def updateLeaves (bitmap : BitmapAccumulator) (leaves : List ℕ) (s : ℕ → Bool) : ℕ → Bool :=
  leaves.foldl (fun s leafIdx =>
    if bitmap.contains leafIdx then LeafSet.add leafIdx s
    else if s leafIdx then LeafSet.remove leafIdx s
    else s) s

/-- `PruneableMMR::UpdateLeafSet`. -/
def updateLeafSet (bitmap : BitmapAccumulator) (numLeaves : ℕ) (f : PruneableFiles α) :
    PruneableFiles α :=
  { f with leafSet := LeafSet.rewind numLeaves [] (updateLeaves bitmap (List.range numLeaves)
      f.leafSet) }

theorem updateLeaves_eq (bitmap : BitmapAccumulator) (leaves : List ℕ) (s : ℕ → Bool) (i : ℕ) :
    updateLeaves bitmap leaves s i = if i ∈ leaves then bitmap.contains i else s i := by
  induction leaves generalizing s with
  | nil => rfl
  | cons leafIdx leaves ih =>
    rw [updateLeaves, List.foldl_cons]
    refine (ih _).trans ?_
    by_cases hmem : i ∈ leaves
    · rw [if_pos hmem, if_pos (List.mem_cons_of_mem _ hmem)]
    · rw [if_neg hmem]
      by_cases hi : i = leafIdx
      · subst hi
        rw [if_pos (List.mem_cons_self ..)]
        split
        · next h => rw [LeafSet.add, Function.update_self, h]
        · next h =>
          split
          · rw [LeafSet.remove, Function.update_self, Bool.eq_false_iff.mpr h]
          · next hs => rw [Bool.eq_false_iff.mpr hs, Bool.eq_false_iff.mpr h]
      · have hcons : i ∉ leafIdx :: leaves := by simp [hi, hmem]
        rw [if_neg hcons]
        split
        · rw [LeafSet.add, Function.update_of_ne hi]
        · split
          · rw [LeafSet.remove, Function.update_of_ne hi]
          · rfl

/-- **The leaf set becomes the bitmap**, cut off at the number of leaves. -/
theorem leafSet_updateLeafSet (bitmap : BitmapAccumulator) (numLeaves : ℕ) (f : PruneableFiles α)
    (i : ℕ) :
    (f.updateLeafSet bitmap numLeaves).leafSet i =
      (decide (i < numLeaves) && bitmap.contains i) := by
  show (decide (i < numLeaves) && (updateLeaves bitmap (List.range numLeaves) f.leafSet i ||
    ([] : List ℕ).contains i)) = _
  rw [updateLeaves_eq, List.contains_nil, Bool.or_false]
  by_cases hi : i < numLeaves
  · rw [if_pos (List.mem_range.mpr hi)]
  · rw [decide_eq_false hi, Bool.false_and, Bool.false_and]

end PruneableFiles

/-! ### The bitmap is built -/

variable (G : Global)

/-- The chunk of `BuildOutputBitmapCache`: a bit for each unpruned leaf. -/
def buildChunk (f : PruneableFiles OutputIdentifier) (outputLeaves chunkIdx : ℕ) : BitmapChunk :=
  let firstLeaf := chunkIdx * 1024
  let lastLeaf := min outputLeaves (firstLeaf + 1024)
  (List.range' firstLeaf (lastLeaf - firstLeaf)).foldl
    (fun chunk leafIdx =>
      if f.isUnpruned leafIdx then chunk.set (leafIdx - firstLeaf) true else chunk)
    (BitmapChunk.filled 0)

/-- The accumulator of `BuildOutputBitmapCache`, chunk by chunk. -/
def buildAccumulator (f : PruneableFiles OutputIdentifier) (outputLeaves : ℕ) :
    BitmapAccumulator :=
  (List.range ((outputLeaves + 1024 - 1) / 1024)).foldl
    (fun accumulator chunkIdx =>
      accumulator.appendChunk G (buildChunk f outputLeaves chunkIdx)) .empty

variable {G}

theorem isSet_buildChunk (f : PruneableFiles OutputIdentifier) (outputLeaves chunkIdx : ℕ)
    {b : ℕ} (hb : b < 1024) :
    (buildChunk f outputLeaves chunkIdx).isSet b =
      (decide (chunkIdx * 1024 + b < outputLeaves) && f.isUnpruned (chunkIdx * 1024 + b)) := by
  have hfold : ∀ (count start : ℕ) (chunk : BitmapChunk), chunkIdx * 1024 ≤ start →
      start + count ≤ chunkIdx * 1024 + 1024 →
      ((List.range' start count).foldl
        (fun chunk leafIdx =>
          if f.isUnpruned leafIdx then chunk.set (leafIdx - chunkIdx * 1024) true else chunk)
        chunk).isSet b =
      (chunk.isSet b || (decide (start ≤ chunkIdx * 1024 + b ∧ chunkIdx * 1024 + b < start + count)
        && f.isUnpruned (chunkIdx * 1024 + b))) := by
    intro count
    induction count with
    | zero =>
      intro start chunk _ _
      rw [List.range'_zero, List.foldl_nil, decide_eq_false (by omega), Bool.false_and,
        Bool.or_false]
    | succ count ih =>
      intro start chunk hstart hend
      rw [List.range'_succ, List.foldl_cons, ih _ _ (by omega) (by omega)]
      by_cases hleaf : start = chunkIdx * 1024 + b
      · have hsub : chunkIdx * 1024 + b - chunkIdx * 1024 = b := by omega
        rw [hleaf, decide_eq_false (by omega), Bool.false_and, Bool.or_false,
          decide_eq_true (by omega), Bool.true_and, hsub]
        cases f.isUnpruned (chunkIdx * 1024 + b) with
        | false => simp
        | true => simp [BitmapChunk.isSet_set _ hb]
      · have hiff : (start + 1 ≤ chunkIdx * 1024 + b ∧ chunkIdx * 1024 + b < start + 1 + count) ↔
            (start ≤ chunkIdx * 1024 + b ∧ chunkIdx * 1024 + b < start + (count + 1)) := by
          omega
        rw [decide_eq_decide.mpr hiff]
        congr 1
        split
        · rw [BitmapChunk.isSet_set _ (by omega), if_neg (by omega)]
        · rfl
  rw [buildChunk, hfold _ _ _ (le_refl _) (by omega), BitmapChunk.isSet_filled_zero,
    Bool.false_or]
  congr 1
  exact decide_eq_decide.mpr (by omega)

theorem foldl_appendChunk_map (f : ℕ → BitmapChunk) (indices : List ℕ) (b : BitmapAccumulator) :
    indices.foldl (fun accumulator i => accumulator.appendChunk G (f i)) b =
      (indices.map f).foldl (BitmapAccumulator.appendChunk G) b := by
  rw [List.foldl_map]

variable (G) in
/-- The accumulator of the chunks that `LeafSet::Root` reads. -/
def LeafSet.accumulator (s : ℕ → Bool) (numOutputs : ℕ) : BitmapAccumulator :=
  ((List.range ((numOutputs + 1023) / 1024)).map (LeafSet.bitmapChunk s)).foldl
    (BitmapAccumulator.appendChunk G) .empty

/-- **When no bit is behind the last leaf, the chunks that are built are the chunks that are
read.** -/
theorem buildAccumulator_eq {f : PruneableFiles OutputIdentifier} {n : ℕ}
    (hunpruned : ∀ i, f.isUnpruned i = f.leafSet i)
    (hlt : ∀ i, f.leafSet i = true → i < n) :
    buildAccumulator G f n = LeafSet.accumulator G f.leafSet n := by
  rw [buildAccumulator, LeafSet.accumulator, foldl_appendChunk_map, Nat.add_sub_assoc (by decide)]
  congr 1
  refine List.map_congr_left fun i _ => BitmapChunk.ext_isSet fun b hb => ?_
  rw [isSet_buildChunk _ _ _ hb, LeafSet.isSet_bitmapChunk _ _ hb, hunpruned, Nat.mul_comm i]
  by_cases hset : f.leafSet (1024 * i + b)
  · rw [decide_eq_true (hlt _ hset), Bool.true_and]
  · rw [Bool.eq_false_iff.mpr hset, Bool.and_false]

/-! ### The root of the leaf set is the root of an accumulator -/

namespace BitmapAccumulator

theorem Holds.addHashes_eq {b : BitmapAccumulator} (h : Holds G b) (chunk : BitmapChunk) :
    addHashes G b.nodes chunk.bytes none = .ok (b.appendChunk G chunk).nodes := by
  obtain ⟨file, hfile, -, -⟩ := addHashes_ok h chunk.bytes
  have hnodes : (b.appendChunk G chunk).nodes = file := by
    rw [addHashes] at hfile
    simp only [Option.map_none, Option.getD_none, Nat.add_zero] at hfile
    exact appendParents_eq hfile
  rw [hfile, hnodes]

theorem Holds.appendChunks_eq {b : BitmapAccumulator} (h : Holds G b)
    (chunks : List BitmapChunk) :
    LeafSet.appendChunks G (chunks.map CBigInteger.bytes) b.nodes =
      .ok (chunks.foldl (BitmapAccumulator.appendChunk G) b).nodes := by
  induction chunks generalizing b with
  | nil => rfl
  | cons chunk chunks ih =>
    rw [List.map_cons, LeafSet.appendChunks, h.addHashes_eq, ok_bind, ih (h.appendChunk chunk),
      List.foldl_cons]

theorem peakHashes_of_lt {nodes : List Hash} {peaks : List ℕ}
    (h : ∀ p ∈ peaks, p < nodes.length) :
    peakHashes nodes none peaks = .ok (peaks.map fun p => nodes.getD p Hash.zero) := by
  induction peaks with
  | nil => rfl
  | cons p peaks ih =>
    obtain ⟨hp, hpeaks⟩ := List.forall_mem_cons.mp h
    rw [peakHashes, getDataAt, getShiftedIndex, List.getElem?_eq_getElem hp, ih hpeaks,
      List.map_cons, List.getD_eq_getElem _ _ hp]
    rfl

end BitmapAccumulator

open BitmapAccumulator in
/-- **`LeafSet::Root` is the root of the accumulator of its chunks.** -/
theorem LeafSet.root_eq (s : ℕ → Bool) (n : ℕ) :
    LeafSet.root G s n = .ok ((LeafSet.accumulator G s n).root G) := by
  obtain ⟨hholds, -⟩ := (holds_empty (G := G)).foldl
    ((List.range ((n + 1023) / 1024)).map (LeafSet.bitmapChunk s))
  have hchunks : ((List.range ((n + 1023) / 1024)).map (LeafSet.bitmapChunk s)).map
      CBigInteger.bytes = LeafSet.chunks s n := by
    rw [List.map_map]
    rfl
  have hnodes : LeafSet.appendChunks G (LeafSet.chunks s n) [] =
      .ok (LeafSet.accumulator G s n).nodes := by
    rw [← hchunks]
    exact (holds_empty (G := G)).appendChunks_eq _
  change (LeafSet.accumulator G s n).Holds G at hholds
  rw [LeafSet.root, hnodes, ok_bind, BitmapAccumulator.root]
  by_cases hzero : (LeafSet.accumulator G s n).nodes.length = 0
  · rw [if_pos hzero, if_pos (List.isEmpty_iff_length_eq_zero.mpr hzero)]
  · have hpeaks : ∀ p ∈ getPeakIndices (LeafSet.accumulator G s n).nodes.length,
        p < (LeafSet.accumulator G s n).nodes.length := by
      intro p hp
      rw [hholds.length_eq, getPeakIndices_leafPos] at hp
      have := (peaksFrom_bounds hp).2
      rw [hholds.length_eq]
      omega
    rw [if_neg hzero, if_neg (fun he => hzero (List.isEmpty_iff_length_eq_zero.mp he)),
      peakHashes_of_lt hpeaks]
    rfl

/-! ### The hash set with its cache -/

/-- `TxHashSet` with the cache of its bitmap. -/
structure CachedTxHashSet where
  /-- The ranges and the header. -/
  txHashSet : TxHashSet
  /-- `m_outputBitmapCache`. -/
  outputBitmapCache : Option BitmapAccumulator
  /-- `m_outputBitmapCacheOutputMMRSize`. -/
  outputBitmapCacheOutputMMRSize : ℕ

namespace CachedTxHashSet

/-- The output range as it is. -/
abbrev outputs (t : CachedTxHashSet) : PruneableFiles OutputIdentifier :=
  t.txHashSet.outputPMMR.current

/-- The number of output leaves. -/
def numOutputs (t : CachedTxHashSet) : ℕ :=
  countLeaves t.outputs.getSize

/-- `TxHashSet::InvalidateOutputBitmapCache`. -/
def invalidateOutputBitmapCache (t : CachedTxHashSet) : CachedTxHashSet :=
  { t with
    outputBitmapCache := none
    outputBitmapCacheOutputMMRSize := 0 }

variable (G) in
/-- `TxHashSet::BuildOutputBitmapCache`. -/
def buildOutputBitmapCache (t : CachedTxHashSet) : CachedTxHashSet :=
  let outputMMRSize := t.outputs.getSize
  if t.outputBitmapCache.isSome ∧ t.outputBitmapCacheOutputMMRSize = outputMMRSize then t
  else
    { t with
      outputBitmapCacheOutputMMRSize := outputMMRSize
      outputBitmapCache := some (buildAccumulator G t.outputs (countLeaves outputMMRSize)) }

variable (G) in
/-- `TxHashSet::GetOutputBitmapAccumulator`. -/
def getOutputBitmapAccumulator (t : CachedTxHashSet) :
    Option BitmapAccumulator × CachedTxHashSet :=
  let t := t.buildOutputBitmapCache G
  (t.outputBitmapCache, t)

variable (G) in
/-- `TxHashSet::GetOutputBitmapRoot`. -/
def getOutputBitmapRoot (numOutputs : ℕ) (t : CachedTxHashSet) : Except Exc Hash :=
  t.outputs.ubmtRoot G numOutputs

/-- A method of the hash set that throws the cache away first. -/
def onTxHashSet {α : Type} (x : Exec Exc UtxoState α) (blockDB : BlockDB) (t : CachedTxHashSet) :
    Except Exc α × BlockDB × CachedTxHashSet :=
  let t := t.invalidateOutputBitmapCache
  let (result, s) := run x ⟨blockDB, t.txHashSet⟩
  (result, s.blockDB, { t with txHashSet := s.txHashSet })

variable (G) in
/-- `TxHashSet::ApplyBlock`. -/
def applyBlock (blockDB : BlockDB) (block : FullBlock) :
    CachedTxHashSet → Except Exc Bool × BlockDB × CachedTxHashSet :=
  onTxHashSet (TxHashSet.applyBlock G block) blockDB

variable (G) in
/-- `TxHashSet::Rewind`. -/
def rewind (blockDB : BlockDB) (header : BlockHeader) :
    CachedTxHashSet → Except Exc Unit × BlockDB × CachedTxHashSet :=
  onTxHashSet (TxHashSet.rewind G header) blockDB

/-- `TxHashSet::UpdateLeafSets`. -/
def updateLeafSets (outputBitmap : BitmapAccumulator) (numOutputs : ℕ) (t : CachedTxHashSet) :
    CachedTxHashSet :=
  let outputPMMR := t.txHashSet.outputPMMR.write (·.updateLeafSet outputBitmap numOutputs)
  let rangeProofPMMR :=
    t.txHashSet.rangeProofPMMR.write (·.updateLeafSet outputBitmap numOutputs)
  { txHashSet :=
      { t.txHashSet with
        outputPMMR := outputPMMR
        rangeProofPMMR := rangeProofPMMR }
    outputBitmapCacheOutputMMRSize := outputPMMR.current.getSize
    outputBitmapCache := some outputBitmap }

/-- `TxHashSet::Commit`. -/
def commit (t : CachedTxHashSet) : CachedTxHashSet :=
  { t with txHashSet := t.txHashSet.commit }

/-- `TxHashSet::Rollback`. -/
def rollback (t : CachedTxHashSet) : CachedTxHashSet :=
  { t.invalidateOutputBitmapCache with txHashSet := t.txHashSet.rollback }

/-! ### Runs -/

/-- A call of a method. The database is the caller's, and an accumulator is only ever built chunk
by chunk. -/
inductive Op
  | applyBlock (blockDB : BlockDB) (block : FullBlock)
  | rewind (blockDB : BlockDB) (header : BlockHeader)
  | updateLeafSets (chunks : List BitmapChunk) (numOutputs : ℕ)
  | commit
  | rollback
  | getOutputBitmapAccumulator

variable (G) in
/-- The state after a call, whatever its outcome. -/
def step (t : CachedTxHashSet) : Op → CachedTxHashSet
  | .applyBlock blockDB block => (t.applyBlock G blockDB block).2.2
  | .rewind blockDB header => (t.rewind G blockDB header).2.2
  | .updateLeafSets chunks numOutputs =>
    t.updateLeafSets (chunks.foldl (BitmapAccumulator.appendChunk G) .empty) numOutputs
  | .commit => t.commit
  | .rollback => t.rollback
  | .getOutputBitmapAccumulator => (t.getOutputBitmapAccumulator G).2

variable (G) in
/-- The hash set of the first start: the output of the genesis block is in the range, and it may
not have been made permanent yet. -/
structure AtGenesis (t : CachedTxHashSet) : Prop where
  /-- There is one output. -/
  outputs : ∃ output, PruneableFiles.append G OutputIdentifier.serialize
    (OutputIdentifier.fromOutput output) ⟨[], fun _ => false, .empty, []⟩ = .ok t.outputs
  /-- It is permanent, or nothing is. -/
  committed : t.txHashSet.outputPMMR.committed = t.outputs ∨
    t.txHashSet.outputPMMR.committed = ⟨[], fun _ => false, .empty, []⟩
  /-- Nothing is cached. -/
  outputBitmapCache : t.outputBitmapCache = none

variable (G) in
/-- The states of the runs whose calls are all permitted. -/
inductive Reachable (permitted : CachedTxHashSet → Op → Prop) : CachedTxHashSet → Prop
  | genesis {t : CachedTxHashSet} (h : AtGenesis G t) : Reachable permitted t
  | step {t : CachedTxHashSet} (op : Op) (h : Reachable permitted t) (hop : permitted t op) :
    Reachable permitted (t.step G op)

/-- The file of the hashes, of 32 bytes each, has a length of 64 bits. -/
def Sized (t : CachedTxHashSet) : Prop :=
  32 * t.outputs.hashFile.length < 2 ^ 64

variable (G) in
/-- **The three roots agree.** -/
def RootsAgree (t : CachedTxHashSet) : Prop :=
  ∃ accumulator, (t.getOutputBitmapAccumulator G).1 = some accumulator ∧
    t.getOutputBitmapRoot G t.numOutputs = .ok (accumulator.root G) ∧
    (buildAccumulator G t.outputs t.numOutputs).root G = accumulator.root G

variable (G) in
/-- The bitmap has the chunks of the range, and no bit behind its last leaf or behind the number
that is given. -/
def Fits (t : CachedTxHashSet) : Op → Prop
  | .updateLeafSets chunks numOutputs =>
    chunks.length = (t.numOutputs + 1023) / 1024 ∧
      ∀ i, (chunks.foldl (BitmapAccumulator.appendChunk G) .empty).contains i = true →
        i < t.numOutputs ∧ i < numOutputs
  | _ => True

/-! ### The invariant -/

/-- The range was never pruned. -/
def Unpruned (G : Global) (f : PruneableFiles OutputIdentifier) : Prop :=
  ∃ leaves, PruneableFiles.RangeOf G OutputIdentifier.serialize f leaves

variable (G) in
/-- **The invariant.** -/
structure Consistent (t : CachedTxHashSet) : Prop where
  /-- No bit is behind the last leaf of the range … -/
  current : Unpruned G t.outputs
  /-- … nor of its permanent copy. -/
  committed : Unpruned G t.txHashSet.outputPMMR.committed
  /-- What is cached was built for the range as it is. -/
  cached : ∀ accumulator, t.outputBitmapCache = some accumulator →
    t.outputBitmapCacheOutputMMRSize = t.outputs.getSize ∧
      (t.Sized → accumulator = LeafSet.accumulator G t.outputs.leafSet t.numOutputs)

variable {t : CachedTxHashSet}

theorem unpruned_empty : Unpruned G ⟨[], fun _ => false, .empty, []⟩ :=
  ⟨[], isRange_nil, rfl, rfl, fun _ h => by cases h⟩

theorem numOutputs_le {leaves : List OutputIdentifier}
    (h : PruneableFiles.RangeOf G OutputIdentifier.serialize t.outputs leaves) :
    t.numOutputs ≤ leaves.length := by
  rw [numOutputs, h.getSize_eq, countLeaves]
  split
  · exact Nat.zero_le _
  · rw [calculateLeafIndex_leafPos]
    exact Nat.mod_le _ _

/-- The leaves are counted right. -/
theorem numOutputs_eq {leaves : List OutputIdentifier}
    (h : PruneableFiles.RangeOf G OutputIdentifier.serialize t.outputs leaves) (hs : t.Sized) :
    t.numOutputs = leaves.length := by
  have hle := le_leafPos leaves.length
  have hlength := h.range.length_eq
  rw [List.length_map] at hlength
  rw [Sized, hlength] at hs
  rw [numOutputs, h.getSize_eq, countLeaves_leafPos (by omega)]

/-- **What is built is what is read.** -/
theorem Unpruned.buildAccumulator_eq (h : Unpruned G t.outputs) (hs : t.Sized) :
    buildAccumulator G t.outputs t.numOutputs =
      LeafSet.accumulator G t.outputs.leafSet t.numOutputs := by
  obtain ⟨leaves, hrange⟩ := h
  refine GrinPlusPlus.buildAccumulator_eq hrange.isUnpruned_eq ?_
  rw [numOutputs_eq hrange hs]
  exact hrange.leafSet_lt

/-- **In a consistent state the roots agree.** -/
theorem Consistent.rootsAgree (h : Consistent G t) (hs : t.Sized) : RootsAgree G t := by
  have hbuilt := h.current.buildAccumulator_eq hs
  refine ⟨LeafSet.accumulator G t.outputs.leafSet t.numOutputs, ?_, LeafSet.root_eq _ _, ?_⟩
  · rw [getOutputBitmapAccumulator, buildOutputBitmapCache]
    dsimp only
    split
    · next hcached =>
      obtain ⟨accumulator, haccumulator⟩ := Option.isSome_iff_exists.mp hcached.1
      rw [haccumulator, (h.cached accumulator haccumulator).2 hs]
    · exact congrArg some hbuilt
  · rw [hbuilt]

theorem consistent_of_atGenesis (h : AtGenesis G t) : Consistent G t := by
  obtain ⟨output, houtput⟩ := h.outputs
  obtain ⟨leaves, hempty⟩ := unpruned_empty (G := G)
  have hcurrent : Unpruned G t.outputs := by
    obtain ⟨files, hfiles, hrange, -⟩ := hempty.append_ok (OutputIdentifier.fromOutput output)
    rw [houtput] at hfiles
    cases hfiles
    exact ⟨_, hrange⟩
  refine ⟨hcurrent, ?_, ?_⟩
  · rcases h.committed with hcommitted | hcommitted
    · rw [hcommitted]
      exact hcurrent
    · rw [hcommitted]
      exact unpruned_empty
  · intro accumulator haccumulator
    rw [h.outputBitmapCache] at haccumulator
    cases haccumulator

/-- The output range of a state was never pruned. -/
def UnprunedOutputs (G : Global) (s : UtxoState) : Prop :=
  Unpruned G s.txHashSet.outputPMMR.current

theorem steps_outputs {f : PruneableFiles OutputIdentifier →
      Except Exc (PruneableFiles OutputIdentifier)}
    (hf : ∀ files files', Unpruned G files → f files = .ok files' → Unpruned G files') :
    Steps (Keeps (UnprunedOutputs G)) (TxHashSet.updateOutputPMMR f) := by
  refine steps_update fun s s' h hs => ?_
  obtain ⟨files, hfiles, h⟩ := of_bind_eq_ok h
  cases h
  exact hf _ _ hs hfiles

/-- The methods of the hash set do not prune the outputs. -/
theorem keptByParts_unprunedOutputs : TxHashSet.KeptByParts G (Keeps (UnprunedOutputs G)) where
  removeOutput i := by
    refine steps_outputs ?_
    rintro files files' ⟨leaves, hrange⟩ h
    exact ⟨leaves, (hrange.of_remove h).2.2⟩
  appendOutput output := by
    refine steps_outputs ?_
    rintro files files' ⟨leaves, hrange⟩ h
    obtain ⟨appended, happended, hrange', -⟩ := hrange.append_ok output
    rw [h] at happended
    cases happended
    exact ⟨_, hrange'⟩
  rewindOutputs n leavesToAdd := by
    refine steps_outputs ?_
    rintro files files' ⟨leaves, hrange⟩ h
    exact ⟨_, (hrange.of_rewind h).2.1⟩
  rangeProofs f := by
    refine steps_update fun s s' h hs => ?_
    obtain ⟨files, -, h⟩ := of_bind_eq_ok h
    cases h
    exact hs
  kernels f := by
    refine steps_update fun s s' h hs => ?_
    obtain ⟨files, -, h⟩ := of_bind_eq_ok h
    cases h
    exact hs
  writeTables _ := steps_modify fun _ hs => hs
  header _ := steps_modify fun _ hs => hs

/-- **A method that throws the cache away** keeps the invariant, also when it fails. -/
theorem Consistent.onTxHashSet {α : Type} (h : Consistent G t) {x : Exec Exc UtxoState α}
    (hkeeps : Steps (Keeps (UnprunedOutputs G)) x) (hpermanent : Steps (Same UtxoState.permanent) x)
    (blockDB : BlockDB) : Consistent G (t.onTxHashSet x blockDB).2.2 where
  current := hkeeps ⟨blockDB, t.txHashSet⟩ h.current
  committed := by
    have hsame := hpermanent ⟨blockDB, t.txHashSet⟩
    simp only [Same, UtxoState.permanent, TxHashSet.permanent, Prod.mk.injEq,
      TxHashSet.Permanent.mk.injEq] at hsame
    obtain ⟨-, -, -, houtputs, -⟩ := hsame
    show Unpruned G (run x ⟨blockDB, t.txHashSet⟩).2.txHashSet.outputPMMR.committed
    rw [houtputs]
    exact h.committed
  cached := by
    rintro accumulator ⟨⟩

theorem Consistent.getOutputBitmapAccumulator (h : Consistent G t) :
    Consistent G (t.getOutputBitmapAccumulator G).2 := by
  show Consistent G (t.buildOutputBitmapCache G)
  rw [buildOutputBitmapCache]
  split
  · exact h
  · refine ⟨h.current, h.committed, ?_⟩
    rintro accumulator ⟨⟩
    exact ⟨rfl, fun hs => h.current.buildAccumulator_eq hs⟩

theorem Consistent.commit (h : Consistent G t) : Consistent G t.commit := by
  have houtputs : t.commit.outputs = t.outputs := Batch.commit_current _
  have hnum : t.commit.numOutputs = t.numOutputs := by rw [numOutputs, numOutputs, houtputs]
  refine ⟨?_, ?_, ?_⟩
  · rw [houtputs]
    exact h.current
  · show Unpruned G t.txHashSet.outputPMMR.commit.committed
    rw [Batch.commit_committed]
    exact h.current
  · intro accumulator haccumulator
    rw [Sized, houtputs, hnum]
    exact h.cached accumulator haccumulator

theorem Consistent.rollback (h : Consistent G t) : Consistent G t.rollback := by
  refine ⟨?_, ?_, ?_⟩
  · show Unpruned G t.txHashSet.outputPMMR.rollback.current
    rw [Batch.rollback_current]
    exact h.committed
  · show Unpruned G t.txHashSet.outputPMMR.rollback.committed
    rw [Batch.rollback_committed]
    exact h.committed
  · rintro accumulator ⟨⟩

theorem contains_foldl (chunks : List BitmapChunk) {i : ℕ} {chunk : BitmapChunk}
    (hchunk : chunks[i / 1024]? = some chunk) :
    (chunks.foldl (BitmapAccumulator.appendChunk G) .empty).contains i =
      chunk.isSet (i % 1024) := by
  obtain ⟨-, hchunks⟩ := (BitmapAccumulator.holds_empty (G := G)).foldl chunks
  rw [BitmapAccumulator.contains, hchunks, BitmapAccumulator.empty, List.nil_append, hchunk]

/-- **Replacing the leaf sets** keeps the invariant when the bitmap fits. -/
theorem Consistent.updateLeafSets (h : Consistent G t) {chunks : List BitmapChunk}
    {numOutputs : ℕ} (hfits : Fits G t (.updateLeafSets chunks numOutputs)) :
    Consistent G (t.updateLeafSets
      (chunks.foldl (BitmapAccumulator.appendChunk G) .empty) numOutputs) := by
  obtain ⟨hlength, hbits⟩ := hfits
  obtain ⟨leaves, hrange⟩ := h.current
  have hleaf := fun i => PruneableFiles.leafSet_updateLeafSet
    (chunks.foldl (BitmapAccumulator.appendChunk G) .empty) numOutputs t.outputs i
  -- No bit is cut off, so the new leaf set is the bitmap.
  have hset : ∀ i, (t.outputs.updateLeafSet
      (chunks.foldl (BitmapAccumulator.appendChunk G) .empty) numOutputs).leafSet i =
        (chunks.foldl (BitmapAccumulator.appendChunk G) .empty).contains i := by
    intro i
    rw [hleaf]
    by_cases hi : (chunks.foldl (BitmapAccumulator.appendChunk G) .empty).contains i = true
    · rw [hi, decide_eq_true (hbits i hi).2, Bool.and_self]
    · rw [Bool.eq_false_iff.mpr hi, Bool.and_false]
  refine ⟨⟨leaves, hrange.range, hrange.dataFile_eq, hrange.pruneList_eq, ?_⟩, h.committed, ?_⟩
  · intro i hi
    exact lt_of_lt_of_le (hbits i ((hset i).symm.trans hi)).1 (numOutputs_le hrange)
  · rintro accumulator ⟨⟩
    refine ⟨rfl, fun _ => ?_⟩
    show _ = LeafSet.accumulator G _ t.numOutputs
    rw [LeafSet.accumulator]
    congr 1
    refine List.ext_getElem (by rw [hlength, List.length_map, List.length_range]) ?_
    intro i hi hi'
    rw [List.getElem_map, List.getElem_range]
    refine BitmapChunk.ext_isSet fun b hb => ?_
    have hdiv : (1024 * i + b) / 1024 = i := by omega
    have hmod : (1024 * i + b) % 1024 = b := by omega
    have hchunk : chunks[(1024 * i + b) / 1024]? = some chunks[i] := by
      rw [hdiv, List.getElem?_eq_getElem hi]
    rw [LeafSet.isSet_bitmapChunk _ _ hb]
    refine Eq.trans ?_ (hset _).symm
    rw [contains_foldl chunks hchunk, hmod]

/-- **A call keeps the invariant.** -/
theorem Consistent.step (h : Consistent G t) {op : Op} (hop : Fits G t op) :
    Consistent G (t.step G op) := by
  cases op with
  | applyBlock blockDB block =>
    exact h.onTxHashSet (keptByParts_unprunedOutputs.applyBlock block)
      (TxHashSet.steps_applyBlock block) blockDB
  | rewind blockDB header =>
    exact h.onTxHashSet (keptByParts_unprunedOutputs.rewind header)
      (TxHashSet.steps_rewind header) blockDB
  | updateLeafSets chunks numOutputs => exact h.updateLeafSets hop
  | commit => exact h.commit
  | rollback => exact h.rollback
  | getOutputBitmapAccumulator => exact h.getOutputBitmapAccumulator

/-- Every state of a run is consistent. -/
theorem consistent_of_reachable (h : Reachable G (Fits G) t) : Consistent G t := by
  induction h with
  | genesis h => exact consistent_of_atGenesis h
  | step op _ hop ih => exact ih.step hop

/-- **The roots of the bitmaps agree** in every state of every run in which `UpdateLeafSets` is
given bitmaps that fit. -/
theorem rootsAgree_reachable (h : Reachable G (Fits G) t) (hs : t.Sized) : RootsAgree G t :=
  (consistent_of_reachable h).rootsAgree hs

/-! ### A bitmap with a bit too many -/

section SmallNet

open SmallNet

/-- The output of the genesis block. -/
def genesisOutput : OutputIdentifier :=
  OutputIdentifier.fromOutput (coinbaseOutput 0)

/-- The range of that output. -/
def genesisOutputs : PruneableFiles OutputIdentifier :=
  ⟨[hashLeafWithIndex (smallNet .mainnet) genesisOutput.serialize 0],
    LeafSet.add 0 fun _ => false, .empty, [genesisOutput]⟩

/-- The hash set of the first start. -/
def genesisTxHashSet : CachedTxHashSet where
  txHashSet :=
    { kernelMMR := Batch.of ⟨[], []⟩
      outputPMMR := Batch.of genesisOutputs
      rangeProofPMMR := Batch.of ⟨[], fun _ => false, .empty, []⟩
      blockHeader := genesisHeader
      blockHeaderBackup := genesisHeader }
  outputBitmapCache := none
  outputBitmapCacheOutputMMRSize := 0

theorem atGenesis_genesisTxHashSet : AtGenesis (smallNet .mainnet) genesisTxHashSet where
  outputs := ⟨coinbaseOutput 0, rfl⟩
  committed := .inl rfl
  outputBitmapCache := rfl

/-- The chunk of one unspent output. -/
def firstChunk : BitmapChunk :=
  (BitmapChunk.filled 0).set 0 true

/-- The same with a bit behind the last leaf. -/
def surplusChunk : BitmapChunk :=
  firstChunk.set 1 true

theorem isSet_firstChunk (i : ℕ) : firstChunk.isSet i = decide (i = 0) := by
  rw [firstChunk, BitmapChunk.isSet_set _ (by decide), BitmapChunk.isSet_filled_zero]
  split
  · next h => rw [decide_eq_true h]
  · next h => rw [decide_eq_false h]

theorem fits_firstChunk :
    Fits (smallNet .mainnet) genesisTxHashSet (.updateLeafSets [firstChunk] 1) := by
  refine ⟨by decide +kernel, fun i hi => ?_⟩
  have hnum : genesisTxHashSet.numOutputs = 1 := by decide +kernel
  have hzero : i = 0 := by
    by_cases hfirst : i / 1024 = 0
    · have hchunk : [firstChunk][i / 1024]? = some firstChunk := by
        rw [hfirst]
        rfl
      rw [contains_foldl _ hchunk, isSet_firstChunk, decide_eq_true_eq] at hi
      omega
    · obtain ⟨-, hchunks⟩ :=
        (BitmapAccumulator.holds_empty (G := smallNet .mainnet)).foldl [firstChunk]
      have hnone : (BitmapAccumulator.empty.chunks ++ [firstChunk])[i / 1024]? = none := by
        refine List.getElem?_eq_none ?_
        show 1 ≤ i / 1024
        omega
      rw [BitmapAccumulator.contains, hchunks, hnone] at hi
      cases hi
  rw [hnum, hzero]
  decide

/-- The bitmap of the one output is put in place, and read from the cache. -/
theorem rootsAgree_reachable_firstChunk :
    RootsAgree (smallNet .mainnet)
      (genesisTxHashSet.step (smallNet .mainnet) (.updateLeafSets [firstChunk] 1)) :=
  rootsAgree_reachable
    (.step _ (.genesis atGenesis_genesisTxHashSet) fits_firstChunk) (by
      show 32 * 1 < 2 ^ 64
      decide)

theorem root_appendChunk_empty (c : BitmapChunk) :
    (BitmapAccumulator.empty.appendChunk G c).root G = hashLeafWithIndex G c.bytes 0 := rfl

/-- **The cache repeats the surplus bit, the leaf set does not have it.** -/
theorem not_rootsAgree_surplusChunk :
    ∃ t, Reachable (smallNet .mainnet) (fun _ _ => True) t ∧ t.Sized ∧
      ¬RootsAgree (smallNet .mainnet) t := by
  refine ⟨genesisTxHashSet.step (smallNet .mainnet) (.updateLeafSets [surplusChunk] 1),
    .step _ (.genesis atGenesis_genesisTxHashSet) trivial, ?_, ?_⟩
  · show 32 * 1 < 2 ^ 64
    decide
  · rintro ⟨accumulator, hcached, hroot, -⟩
    have haccumulator : accumulator =
        BitmapAccumulator.empty.appendChunk (smallNet .mainnet) surplusChunk := by
      cases hcached
      rfl
    obtain ⟨s, hs⟩ : ∃ s, s = (genesisTxHashSet.step (smallNet .mainnet)
      (.updateLeafSets [surplusChunk] 1)).outputs.leafSet := ⟨_, rfl⟩
    have hnum : (genesisTxHashSet.step (smallNet .mainnet)
        (.updateLeafSets [surplusChunk] 1)).numOutputs = 1 := by decide +kernel
    have hread : LeafSet.accumulator (smallNet .mainnet) s 1 =
        BitmapAccumulator.empty.appendChunk (smallNet .mainnet) (LeafSet.bitmapChunk s 0) := rfl
    rw [hnum, getOutputBitmapRoot, PruneableFiles.ubmtRoot, ← hs, LeafSet.root_eq, hread,
      haccumulator, root_appendChunk_empty, root_appendChunk_empty, Except.ok.injEq] at hroot
    -- One leaf on either side: the same hash would need the same bytes.
    have hbytes := ((injectiveWithIndex .mainnet).leaf _ _ _ _ hroot).2
    have hbit : (LeafSet.bitmapChunk s 0).isSet 1 = surplusChunk.isSet 1 := by
      rw [BitmapChunk.isSet, BitmapChunk.isSet, hbytes]
    rw [LeafSet.isSet_bitmapChunk _ _ (by decide), surplusChunk,
      BitmapChunk.isSet_set _ (by decide), if_pos rfl, hs] at hbit
    have hcut := PruneableFiles.leafSet_updateLeafSet
      ([surplusChunk].foldl (BitmapAccumulator.appendChunk (smallNet .mainnet)) .empty) 1
      genesisTxHashSet.outputs (1024 * 0 + 1)
    have hfalse : false = true := hcut.symm.trans hbit
    cases hfalse

end SmallNet

end CachedTxHashSet

end GrinPlusPlus
