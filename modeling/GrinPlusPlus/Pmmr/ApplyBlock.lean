import GrinPlusPlus.Pmmr.TxHashSet

/-!
# What applying a block does

`TxHashSet::ApplyBlock` is three loops over the files and the database. This module says once
what they do together: when the call returns `true`, the leaves of the inputs are cleared, the
outputs, range proofs and kernels are appended, and the position table follows
(`GrinPlusPlus.TxHashSet.Applied`, `GrinPlusPlus.TxHashSet.of_run_applyBlock`).

None of this needs the ranges to be unpruned. What is needed of a range is its *shape*
(`GrinPlusPlus.PruneableFiles.Shape`): its files have the lengths that a number of leaves
and the pruned subtrees call for. An append keeps the shape and only adds at the end of the
files, so a rewind to the old number of leaves finds the old files
(`GrinPlusPlus.PruneableFiles.Shape.rewind_eq`).
-/

namespace GrinPlusPlus

open PostOrder MMRHashUtil Exec

/-! ### The shape of a range -/

namespace PruneList

theorem getShift_of_forall_le {l : PruneList} {p : ℕ} (h : ∀ r ∈ l.prunedRoots, r ≤ p) :
    l.getShift p = l.getTotalShift := by
  rw [getShift, getTotalShift, List.filter_eq_self.mpr fun r hr => decide_eq_true (h r hr)]

/-- `PruneList::GetLeafShift` behind the last root. -/
def getTotalLeafShift (l : PruneList) : ℕ :=
  (l.prunedRoots.map fun root =>
    if Index.calculateHeight root = 0 then 0 else 2 ^ Index.calculateHeight root).sum

theorem getLeafShift_of_forall_le {l : PruneList} {p : ℕ} (h : ∀ r ∈ l.prunedRoots, r ≤ p) :
    l.getLeafShift p = l.getTotalLeafShift := by
  rw [getLeafShift, getTotalLeafShift,
    List.filter_eq_self.mpr fun r hr => decide_eq_true (h r hr)]

end PruneList

namespace MMRHashUtil

variable {G : Global}

/-- Whatever the hashes, the parents of a leaf end where the next leaf goes. -/
theorem of_addParents {pruneList : Option PruneList} {shift n fuel : ℕ} {file file' : List Hash}
    (hlt : leafPos n < shift + file.length) (hle : shift + file.length ≤ leafPos (n + 1))
    (hfuel : leafPos (n + 1) < shift + file.length + fuel)
    (h : addParents G pruneList fuel file (shift + file.length) = .ok file') :
    file <+: file' ∧ shift + file'.length = leafPos (n + 1) := by
  induction fuel generalizing file with
  | zero => omega
  | succ fuel ih =>
    rw [addParents, Index.calculateHeight] at h
    split at h
    · next hzero =>
      cases h
      refine ⟨List.prefix_rfl, ?_⟩
      by_contra hne
      exact (height_pos_of_between hlt (by omega)).ne' hzero
    · next hpos =>
      have hlt' : shift + file.length < leafPos (n + 1) := by
        refine lt_of_le_of_ne hle fun heq => hpos ?_
        rw [heq, height_leafPos]
      obtain ⟨left, -, h⟩ := of_bind_eq_ok h
      obtain ⟨right, -, h⟩ := of_bind_eq_ok h
      have hlen : (file ++ [hashParentWithIndex G left right (shift + file.length)]).length =
          file.length + 1 := by
        rw [List.length_append, List.length_singleton]
      rw [Nat.add_assoc, ← hlen] at h
      obtain ⟨hpre, hlen⟩ := ih (by omega) (by omega) (by omega) h
      exact ⟨(List.prefix_append _ _).trans hpre, hlen⟩

/-- **Adding a leaf** closes the range, and the old file is in front of the new one. -/
theorem of_addHashes {pruneList : Option PruneList} {shift n : ℕ} {file file' : List Hash}
    {leaf : List UInt8} (h : addHashes G file leaf pruneList = .ok file')
    (hshift : (pruneList.map PruneList.getTotalShift).getD 0 = shift)
    (hsize : shift + file.length = leafPos n) :
    file <+: file' ∧ shift + file'.length = leafPos (n + 1) := by
  have hposition : file.length + shift = leafPos n := by omega
  have hsucc := leafPos_lt_succ n
  have hbound : leafPos (n + 1) ≤ leafPos n + n + 1 := by
    have h1 := ones_le n
    have h2 : 0 < ones (n + 1) := ones_pos (Nat.succ_pos _)
    have h3 := ones_le (n + 1)
    rw [leafPos, leafPos]
    omega
  have hle := le_leafPos n
  rw [addHashes, hshift, hposition] at h
  have hlen : (file ++ [hashLeafWithIndex G leaf (leafPos n)]).length = file.length + 1 := by
    rw [List.length_append, List.length_singleton]
  have hstart : leafPos n + 1 =
      shift + (file ++ [hashLeafWithIndex G leaf (leafPos n)]).length := by
    omega
  rw [hstart] at h
  obtain ⟨hpre, hend⟩ := of_addParents (n := n) (by omega) (by omega) (by omega) h
  exact ⟨(List.prefix_append _ _).trans hpre, hend⟩

end MMRHashUtil

namespace PruneableFiles

variable {α : Type} {G : Global} {serialized : α → List UInt8} {f f' : PruneableFiles α} {n : ℕ}

/-- The files have the lengths of a range of some leaves. -/
structure Shape (f : PruneableFiles α) (n : ℕ) : Prop where
  /-- The size is the one of that many leaves. -/
  size : f.getSize = leafPos n
  /-- The pruned subtrees are inside of it. -/
  roots_lt : ∀ r ∈ f.pruneList.prunedRoots, r < leafPos n
  /-- The data file has the leaves that were not pruned. -/
  data : f.dataFile.length + f.pruneList.getTotalLeafShift = n
  /-- Every unspent leaf exists. -/
  leafSet_lt : ∀ i, f.leafSet i = true → i < n

/-- A range that was never pruned has the shape of its leaves. -/
theorem RangeOf.shape {leaves : List α} (h : RangeOf G serialized f leaves) :
    Shape f leaves.length where
  size := h.getSize_eq
  roots_lt := by
    intro r hr
    rw [h.pruneList_eq] at hr
    cases hr
  data := by
    rw [h.dataFile_eq, h.pruneList_eq]
    rfl
  leafSet_lt := h.leafSet_lt

theorem Shape.isUnpruned_eq (h : Shape f n) (i : ℕ) : f.isUnpruned i = f.leafSet i := by
  rw [isUnpruned, h.size, leafPosition]
  cases hi : f.leafSet i with
  | false => rw [Bool.and_false]
  | true => rw [Bool.and_true, decide_eq_true_eq.mpr (leafPos_strictMono (h.leafSet_lt i hi))]

/-- The bits of some leaves are cleared. -/
def removeAll (leaves : List ℕ) (f : PruneableFiles α) : PruneableFiles α :=
  { f with leafSet := fun i => f.leafSet i && !leaves.contains i }

theorem removeAll_nil (f : PruneableFiles α) : f.removeAll [] = f := by
  simp [removeAll]

theorem removeAll_cons (i : ℕ) (leaves : List ℕ) (f : PruneableFiles α) :
    f.removeAll (i :: leaves) =
      removeAll leaves { f with leafSet := LeafSet.remove i f.leafSet } := by
  rw [removeAll, removeAll]
  congr 1
  funext j
  by_cases hj : j = i
  · simp [LeafSet.remove, hj]
  · simp [LeafSet.remove, hj]

theorem of_remove {i : ℕ} (h : f.remove i = .ok f') :
    f.leafSet i = true ∧ f' = { f with leafSet := LeafSet.remove i f.leafSet } := by
  rw [remove] at h
  split at h
  · next hi =>
    cases h
    exact ⟨hi, rfl⟩
  · cases h

theorem Shape.removeAll (h : Shape f n) (leaves : List ℕ) : Shape (f.removeAll leaves) n where
  size := h.size
  roots_lt := h.roots_lt
  data := h.data
  leafSet_lt := by
    intro i hi
    rw [PruneableFiles.removeAll, Bool.and_eq_true] at hi
    exact h.leafSet_lt i hi.1

variable (G serialized) in
/-- Append object after object. -/
def appendAll : List α → PruneableFiles α → Except Exc (PruneableFiles α)
  | [], f => .ok f
  | object :: objects, f => do
    let f ← f.append G serialized object
    appendAll objects f

/-- The second files have the first ones in front, and the same subtrees are pruned. -/
structure Extends (f f' : PruneableFiles α) : Prop where
  /-- The hashes are in front. -/
  hashFile : f.hashFile <+: f'.hashFile
  /-- The leaves are in front. -/
  dataFile : f.dataFile <+: f'.dataFile
  /-- The same subtrees are pruned. -/
  pruneList : f'.pruneList = f.pruneList

theorem Extends.refl (f : PruneableFiles α) : Extends f f :=
  ⟨List.prefix_rfl, List.prefix_rfl, rfl⟩

theorem Extends.trans {f'' : PruneableFiles α} (h : Extends f f') (h' : Extends f' f'') :
    Extends f f'' :=
  ⟨h.hashFile.trans h'.hashFile, h.dataFile.trans h'.dataFile, h'.pruneList.trans h.pruneList⟩

theorem Shape.of_append (h : Shape f n) {object : α}
    (hf : f.append G serialized object = .ok f') :
    Shape f' (n + 1) ∧ Extends f f' ∧ f'.dataFile = f.dataFile ++ [object] ∧
      f'.leafSet = LeafSet.add n f.leafSet := by
  rw [append] at hf
  obtain ⟨hashFile, hhashes, hf⟩ := of_bind_eq_ok hf
  cases hf
  obtain ⟨hpre, hlen⟩ := of_addHashes hhashes rfl h.size
  have hindex : Index.calculateLeafIndex f.getSize = n := by
    rw [h.size, calculateLeafIndex_leafPos]
  rw [hindex]
  refine ⟨⟨hlen, ?_, ?_, ?_⟩, ⟨hpre, List.prefix_append _ _, rfl⟩, rfl, rfl⟩
  · exact fun r hr => (h.roots_lt r hr).trans (leafPos_lt_succ n)
  · have := h.data
    rw [List.length_append, List.length_singleton]
    dsimp only
    omega
  · intro i hi
    by_cases heq : i = n
    · omega
    · have := h.leafSet_lt i (by simpa [LeafSet.add, heq] using hi)
      omega

/-- **Appending many** keeps the shape, adds at the end only, and sets the new bits. -/
theorem Shape.of_appendAll (h : Shape f n) {objects : List α}
    (hf : f.appendAll G serialized objects = .ok f') :
    Shape f' (n + objects.length) ∧ Extends f f' ∧ f'.dataFile = f.dataFile ++ objects ∧
      ∀ i, f'.leafSet i = (f.leafSet i || decide (n ≤ i ∧ i < n + objects.length)) := by
  induction objects generalizing f n with
  | nil =>
    cases hf
    refine ⟨h, .refl _, (List.append_nil _).symm, fun i => ?_⟩
    have hno : ¬(n ≤ i ∧ i < n + ([] : List α).length) := by
      rw [List.length_nil]
      omega
    rw [decide_eq_false hno, Bool.or_false]
  | cons object objects ih =>
    rw [appendAll] at hf
    obtain ⟨f₁, h₁, hf⟩ := of_bind_eq_ok hf
    obtain ⟨hshape, hext, hdata, hset⟩ := h.of_append h₁
    obtain ⟨hshape', hext', hdata', hset'⟩ := ih hshape hf
    rw [List.length_cons, show n + (objects.length + 1) = n + 1 + objects.length by omega]
    refine ⟨hshape', hext.trans hext', ?_, fun i => ?_⟩
    · rw [hdata', hdata, List.append_assoc, List.singleton_append]
    · rw [hset' i, hset, LeafSet.add]
      by_cases heq : i = n
      · have hin : n ≤ i ∧ i < n + 1 + objects.length := by omega
        rw [decide_eq_true hin, Bool.or_true, heq, Function.update_self, Bool.true_or]
      · have hiff : (n + 1 ≤ i ∧ i < n + 1 + objects.length) ↔
            (n ≤ i ∧ i < n + 1 + objects.length) := by omega
        rw [Function.update_of_ne heq, decide_eq_decide.mpr hiff]

/-- In a range that was never pruned, the new leaves are behind the old ones. -/
theorem RangeOf.of_appendAll {leaves objects : List α} (h : RangeOf G serialized f leaves)
    (hf : f.appendAll G serialized objects = .ok f') :
    RangeOf G serialized f' (leaves ++ objects) := by
  induction objects generalizing f leaves with
  | nil =>
    cases hf
    rwa [List.append_nil]
  | cons object objects ih =>
    rw [appendAll] at hf
    obtain ⟨f₁, h₁, hf⟩ := of_bind_eq_ok hf
    obtain ⟨f₂, h₂, hrange, -⟩ := h.append_ok object
    rw [h₁] at h₂
    cases h₂
    have := ih hrange hf
    rwa [List.append_assoc, List.singleton_append] at this

theorem RangeOf.removeAll {leaves : List α} (h : RangeOf G serialized f leaves)
    (spent : List ℕ) : RangeOf G serialized (f.removeAll spent) leaves where
  range := h.range
  dataFile_eq := h.dataFile_eq
  pruneList_eq := h.pruneList_eq
  leafSet_lt := by
    intro i hi
    rw [PruneableFiles.removeAll, Bool.and_eq_true] at hi
    exact h.leafSet_lt i hi.1

theorem le_decrement_of_lt {r p : ℕ} (h : r < p) : r ≤ decrement p := by
  rw [decrement, if_neg (by omega)]
  omega

/-- **A rewind to the old number of leaves** gives the old files back. -/
theorem Shape.rewind_eq (h : Shape f n) (hext : Extends f f') (leavesToAdd : List ℕ) :
    f'.rewind n leavesToAdd =
      .ok { f with leafSet := LeafSet.rewind n leavesToAdd f'.leafSet } := by
  have hroots : ∀ r ∈ f.pruneList.prunedRoots, r ≤ decrement (leafPosition n) :=
    fun r hr => le_decrement_of_lt (h.roots_lt r hr)
  have hsize := h.size
  have hdata := h.data
  rw [getSize] at hsize
  obtain ⟨hashes, hhashes⟩ := hext.hashFile
  obtain ⟨leaves, hleaves⟩ := hext.dataFile
  rw [rewind, hext.pruneList, PruneList.getShift_of_forall_le hroots,
    PruneList.getLeafShift_of_forall_le hroots, leafPosition]
  rw [show sub64 (leafPos n) f.pruneList.getTotalShift = f.hashFile.length by
      rw [sub64, if_pos (by omega)]; omega,
    show sub64 n f.pruneList.getTotalLeafShift = f.dataFile.length by
      rw [sub64, if_pos (by omega)]; omega,
    rewindFile, rewindFile, ← hhashes, ← hleaves,
    if_neg (by rw [List.length_append]; omega), if_neg (by rw [List.length_append]; omega),
    List.take_left, List.take_left]
  rfl

end PruneableFiles

namespace KernelFiles

variable {G : Global} {f f' : KernelFiles} {m : ℕ}

/-- The files have the lengths of a range of some kernels. -/
structure Shape (f : KernelFiles) (m : ℕ) : Prop where
  /-- The size is the one of that many kernels. -/
  size : f.hashFile.length = leafPos m
  /-- The data file has the kernels. -/
  data : f.dataFile.length = m

/-- A range of kernels has their shape. -/
theorem RangeOf.shape {kernels : List TransactionKernel} (h : RangeOf G f kernels) :
    Shape f kernels.length where
  size := by rw [h.range.length_eq, List.length_map]
  data := by rw [h.dataFile_eq]

variable (G) in
/-- Append kernel after kernel. -/
def applyAll : List TransactionKernel → KernelFiles → Except Exc KernelFiles
  | [], f => .ok f
  | kernel :: kernels, f => do
    let f ← f.applyKernel G kernel
    applyAll kernels f

/-- **Appending kernels** keeps the shape and adds at the end only. -/
theorem Shape.of_applyAll (h : Shape f m) {kernels : List TransactionKernel}
    (hf : f.applyAll G kernels = .ok f') :
    Shape f' (m + kernels.length) ∧ f.hashFile <+: f'.hashFile ∧
      f'.dataFile = f.dataFile ++ kernels := by
  induction kernels generalizing f m with
  | nil =>
    cases hf
    exact ⟨h, List.prefix_rfl, (List.append_nil _).symm⟩
  | cons kernel kernels ih =>
    rw [applyAll] at hf
    obtain ⟨f₁, h₁, hf⟩ := of_bind_eq_ok hf
    rw [applyKernel] at h₁
    obtain ⟨hashFile, hhashes, h₁⟩ := of_bind_eq_ok h₁
    cases h₁
    obtain ⟨hpre, hlen⟩ := of_addHashes hhashes rfl
      (by rw [h.size, Nat.zero_add] : 0 + f.hashFile.length = leafPos m)
    have hshape : Shape ⟨hashFile, f.dataFile ++ [kernel]⟩ (m + 1) := by
      refine ⟨(Nat.zero_add _).symm.trans hlen, ?_⟩
      rw [List.length_append, List.length_singleton, h.data]
    obtain ⟨hshape', hpre', hdata'⟩ := ih hshape hf
    rw [List.length_cons, show m + (kernels.length + 1) = m + 1 + kernels.length by omega]
    refine ⟨hshape', hpre.trans hpre', ?_⟩
    rw [hdata', List.append_assoc, List.singleton_append]

/-- The new kernels are behind the old ones. -/
theorem RangeOf.of_applyAll {kernels new : List TransactionKernel} (h : RangeOf G f kernels)
    (hf : f.applyAll G new = .ok f') : RangeOf G f' (kernels ++ new) := by
  induction new generalizing f kernels with
  | nil =>
    cases hf
    rwa [List.append_nil]
  | cons kernel new ih =>
    rw [applyAll] at hf
    obtain ⟨f₁, h₁, hf⟩ := of_bind_eq_ok hf
    obtain ⟨f₂, h₂, hrange⟩ := h.applyKernel_ok kernel
    rw [h₁] at h₂
    cases h₂
    have := ih hrange hf
    rwa [List.append_assoc, List.singleton_append] at this

/-- A rewind to the old number of kernels gives the old files back. -/
theorem Shape.rewind_eq (h : Shape f m) (hhash : f.hashFile <+: f'.hashFile)
    (hdata : f.dataFile <+: f'.dataFile) : f'.rewind m = .ok f := by
  obtain ⟨hashes, hhashes⟩ := hhash
  obtain ⟨kernels, hkernels⟩ := hdata
  have hsize := h.size
  have hlen := h.data
  rw [rewind, leafPosition, ← hsize, rewindFile, ← hhashes,
    if_neg (by rw [List.length_append]; omega), List.take_left]
  dsimp only [bind, Except.bind]
  rw [rewindFile, ← hkernels, if_neg (by rw [List.length_append]; omega), ← hlen, List.take_left]

end KernelFiles

/-! ### The three loops -/

namespace BlockDB

/-- The positions of new outputs, from a leaf on. -/
def addOutputPositions (height : ℕ) : ℕ → List TransactionOutput → BlockDB → BlockDB
  | _, [], db => db
  | leafIndex, output :: outputs, db =>
    addOutputPositions height (leafIndex + 1) outputs
      (db.addOutputPosition output.commitment ⟨leafIndex, height⟩)

end BlockDB

namespace TxHashSet

variable {G : Global} {s s' : UtxoState}

/-- The commitment and the location of a spent output. -/
def spentOutputs (inputs : List TransactionInput) (locations : List OutputLocation) :
    List SpentOutput :=
  List.zipWith (fun i l => ⟨i.commitment, l⟩) inputs locations

theorem of_run_updateOutputPMMR {f : PruneableFiles OutputIdentifier →
    Except Exc (PruneableFiles OutputIdentifier)} {u : Unit}
    (h : run (updateOutputPMMR f) s = (.ok u, s')) :
    ∃ files, f s.txHashSet.outputPMMR.current = .ok files ∧
      s' = { s with
        txHashSet :=
          { s.txHashSet with outputPMMR := s.txHashSet.outputPMMR.write fun _ => files } } := by
  obtain ⟨files, hfiles, heq⟩ := of_bind_eq_ok (of_run_update_ok h)
  cases heq
  exact ⟨files, hfiles, rfl⟩

theorem of_run_updateRangeProofPMMR {f : PruneableFiles RangeProof →
    Except Exc (PruneableFiles RangeProof)} {u : Unit}
    (h : run (updateRangeProofPMMR f) s = (.ok u, s')) :
    ∃ files, f s.txHashSet.rangeProofPMMR.current = .ok files ∧
      s' = { s with
        txHashSet :=
          { s.txHashSet with
            rangeProofPMMR := s.txHashSet.rangeProofPMMR.write fun _ => files } } := by
  obtain ⟨files, hfiles, heq⟩ := of_bind_eq_ok (of_run_update_ok h)
  cases heq
  exact ⟨files, hfiles, rfl⟩

theorem of_run_updateKernelMMR {f : KernelFiles → Except Exc KernelFiles} {u : Unit}
    (h : run (updateKernelMMR f) s = (.ok u, s')) :
    ∃ files, f s.txHashSet.kernelMMR.current = .ok files ∧
      s' = { s with
        txHashSet :=
          { s.txHashSet with kernelMMR := s.txHashSet.kernelMMR.write fun _ => files } } := by
  obtain ⟨files, hfiles, heq⟩ := of_bind_eq_ok (of_run_update_ok h)
  cases heq
  exact ⟨files, hfiles, rfl⟩

theorem run_updateOutputPMMR {f : PruneableFiles OutputIdentifier →
    Except Exc (PruneableFiles OutputIdentifier)} {files : PruneableFiles OutputIdentifier}
    (h : f s.txHashSet.outputPMMR.current = .ok files) :
    run (updateOutputPMMR f) s =
      (.ok (), { s with
        txHashSet :=
          { s.txHashSet with outputPMMR := s.txHashSet.outputPMMR.write fun _ => files } }) :=
  run_update_ok (by rw [h]; rfl)

theorem run_updateRangeProofPMMR {f : PruneableFiles RangeProof →
    Except Exc (PruneableFiles RangeProof)} {files : PruneableFiles RangeProof}
    (h : f s.txHashSet.rangeProofPMMR.current = .ok files) :
    run (updateRangeProofPMMR f) s =
      (.ok (), { s with
        txHashSet :=
          { s.txHashSet with
            rangeProofPMMR := s.txHashSet.rangeProofPMMR.write fun _ => files } }) :=
  run_update_ok (by rw [h]; rfl)

theorem run_updateKernelMMR {f : KernelFiles → Except Exc KernelFiles} {files : KernelFiles}
    (h : f s.txHashSet.kernelMMR.current = .ok files) :
    run (updateKernelMMR f) s =
      (.ok (), { s with
        txHashSet :=
          { s.txHashSet with kernelMMR := s.txHashSet.kernelMMR.write fun _ => files } }) :=
  run_update_ok (by rw [h]; rfl)

/-- What the loop over the inputs does. -/
structure Pruned (s s' : UtxoState) (inputs : List TransactionInput)
    (locations : List OutputLocation) : Prop where
  /-- Each input has a position … -/
  found : List.Forall₂ (fun i l => s.blockDB.getOutputPosition i.commitment = some l) inputs
    locations
  /-- … with an unspent output … -/
  unspent : ∀ l ∈ locations, (s.txHashSet.outputPMMR.current.getAt l.leafIndex).isSome
  /-- … and a range proof, … -/
  unspentProof : ∀ l ∈ locations, s.txHashSet.rangeProofPMMR.current.leafSet l.leafIndex = true
  /-- … and no leaf is spent twice. -/
  nodup : (locations.map OutputLocation.leafIndex).Nodup
  /-- The bits of the outputs are cleared, … -/
  outputs : s'.txHashSet.outputPMMR.current =
    s.txHashSet.outputPMMR.current.removeAll (locations.map OutputLocation.leafIndex)
  /-- … and those of the range proofs. -/
  rangeProofs : s'.txHashSet.rangeProofPMMR.current =
    s.txHashSet.rangeProofPMMR.current.removeAll (locations.map OutputLocation.leafIndex)
  /-- The rest stays. -/
  kernels : s'.txHashSet.kernelMMR = s.txHashSet.kernelMMR
  /-- The rest stays. -/
  blockDB : s'.blockDB = s.blockDB

theorem PruneableFiles.getAt_remove {α : Type} {f : PruneableFiles α} {i j : ℕ}
    (h : (({ f with leafSet := LeafSet.remove i f.leafSet } : PruneableFiles α).getAt j).isSome) :
    j ≠ i ∧ (f.getAt j).isSome := by
  rw [PruneableFiles.getAt, PruneableFiles.isUnpruned] at h
  split at h
  · next hcond =>
    rw [Bool.and_eq_true] at hcond
    have hne : j ≠ i := by
      rintro rfl
      simp [LeafSet.remove] at hcond
    refine ⟨hne, ?_⟩
    have hset : f.leafSet j = true := by simpa [LeafSet.remove, hne] using hcond.2
    have hsize : decide (leafPosition j < f.getSize) = true := hcond.1
    rw [PruneableFiles.getAt, PruneableFiles.isUnpruned, hset, Bool.and_true, if_pos hsize]
    exact h
  · cases h

/-- **The loop over the inputs.** -/
theorem of_run_pruneInputs {maximumBlockHeight : ℕ} {inputs : List TransactionInput}
    {spent spent' : List SpentOutput}
    (h : run (pruneInputs maximumBlockHeight inputs spent) s = (.ok (some spent'), s')) :
    ∃ locations, Pruned s s' inputs locations ∧
      spent' = spent ++ spentOutputs inputs locations := by
  induction inputs generalizing s spent with
  | nil =>
    cases h
    refine ⟨[], ⟨.nil, ?_, ?_, List.nodup_nil, ?_, ?_, rfl, rfl⟩, (List.append_nil _).symm⟩
    · exact fun l hl => (by cases hl)
    · exact fun l hl => (by cases hl)
    · exact (PruneableFiles.removeAll_nil _).symm
    · exact (PruneableFiles.removeAll_nil _).symm
  | cons input inputs ih =>
    rw [pruneInputs] at h
    obtain ⟨_, _, hget, h⟩ := of_run_bind_ok h
    cases hget
    rcases hpos : s.blockDB.getOutputPosition input.commitment with _ | position
    · rw [hpos] at h
      cases h
    · rw [hpos] at h
      dsimp only at h
      rcases hout : s.txHashSet.outputPMMR.current.getAt position.leafIndex with _ | output
      · rw [hout] at h
        cases h
      · rw [hout] at h
        dsimp only at h
        split at h
        · cases h
        · obtain ⟨_, s₁, h₁, h⟩ := of_run_bind_ok h
          obtain ⟨_, s₂, h₂, h⟩ := of_run_bind_ok h
          obtain ⟨files, hfiles, rfl⟩ := of_run_updateOutputPMMR h₁
          obtain ⟨proofs, hproofs, rfl⟩ := of_run_updateRangeProofPMMR h₂
          obtain ⟨hset, rfl⟩ := PruneableFiles.of_remove hfiles
          obtain ⟨hset', rfl⟩ := PruneableFiles.of_remove hproofs
          obtain ⟨locations, hp, rfl⟩ := ih h
          -- The leaves of the other inputs are still unspent, so they are not this one.
          have hrest : ∀ l ∈ locations, l.leafIndex ≠ position.leafIndex ∧
              (s.txHashSet.outputPMMR.current.getAt l.leafIndex).isSome := fun l hl =>
            PruneableFiles.getAt_remove (hp.unspent l hl)
          refine ⟨position :: locations, ⟨.cons hpos hp.found, ?_, ?_, ?_, ?_, ?_, hp.kernels,
            hp.blockDB⟩, ?_⟩
          · exact List.forall_mem_cons.mpr ⟨by rw [hout]; rfl, fun l hl => (hrest l hl).2⟩
          · refine List.forall_mem_cons.mpr ⟨hset', fun l hl => ?_⟩
            have := hp.unspentProof l hl
            simpa [LeafSet.remove, (hrest l hl).1] using this
          · rw [List.map_cons, List.nodup_cons]
            refine ⟨fun hin => ?_, hp.nodup⟩
            obtain ⟨l, hl, heq⟩ := List.mem_map.mp hin
            exact (hrest l hl).1 heq
          · rw [List.map_cons, PruneableFiles.removeAll_cons]
            exact hp.outputs
          · rw [List.map_cons, PruneableFiles.removeAll_cons]
            exact hp.rangeProofs
          · rw [List.append_assoc, List.singleton_append]
            rfl

/-- What the loop over the outputs does. -/
structure Appended (G : Global) (s s' : UtxoState) (height n : ℕ)
    (created : List TransactionOutput) : Prop where
  /-- The identifiers are appended, … -/
  outputs : s.txHashSet.outputPMMR.current.appendAll G OutputIdentifier.serialize
    (created.map OutputIdentifier.fromOutput) = .ok s'.txHashSet.outputPMMR.current
  /-- … and the range proofs. -/
  rangeProofs : s.txHashSet.rangeProofPMMR.current.appendAll G RangeProof.serialize
    (created.map TransactionOutput.rangeProof) = .ok s'.txHashSet.rangeProofPMMR.current
  /-- The positions are noted. -/
  blockDB : s'.blockDB = s.blockDB.addOutputPositions height n created
  /-- No commitment occurs twice, … -/
  nodup : (created.map TransactionOutput.commitment).Nodup
  /-- … and none is that of an unspent output. -/
  fresh : ∀ o ∈ created, ∀ l, s.blockDB.getOutputPosition o.commitment = some l →
    s.txHashSet.outputPMMR.current.leafSet l.leafIndex = false
  /-- The rest stays. -/
  kernels : s'.txHashSet.kernelMMR = s.txHashSet.kernelMMR

/-- **The loop over the outputs.** -/
theorem of_run_appendOutputs {height n : ℕ} {outputs : List TransactionOutput}
    (hshape : s.txHashSet.outputPMMR.current.Shape n)
    (h : run (appendOutputs G height outputs) s = (.ok true, s')) :
    Appended G s s' height n outputs := by
  induction outputs generalizing s n with
  | nil =>
    cases h
    refine ⟨rfl, rfl, rfl, List.nodup_nil, fun o ho => (by cases ho), rfl⟩
  | cons output outputs ih =>
    rw [appendOutputs] at h
    obtain ⟨_, _, hget, h⟩ := of_run_bind_ok h
    cases hget
    dsimp only at h
    split_ifs at h with hexists
    · cases h
    · obtain ⟨_, s₁, h₁, h⟩ := of_run_bind_ok h
      obtain ⟨_, s₂, h₂, h⟩ := of_run_bind_ok h
      obtain ⟨_, s₃, h₃, h⟩ := of_run_bind_ok h
      obtain ⟨files, hfiles, rfl⟩ := of_run_updateOutputPMMR h₁
      obtain ⟨proofs, hproofs, rfl⟩ := of_run_updateRangeProofPMMR h₂
      cases h₃
      obtain ⟨hshape', hext, -, hset⟩ := hshape.of_append hfiles
      have hindex : Index.calculateLeafIndex s.txHashSet.outputPMMR.current.getSize = n := by
        rw [hshape.size, calculateLeafIndex_leafPos]
      rw [hindex] at h
      have hp := ih hshape' h
      -- The commitment that was just added is not added again.
      have hne : ∀ o ∈ outputs, o.commitment ≠ output.commitment := by
        intro o ho heq
        have hspent := hp.fresh o ho ⟨n, height⟩ (by simp [BlockDB.getOutputPosition,
          BlockDB.addOutputPosition, heq])
        change files.leafSet n = false at hspent
        rw [hset, LeafSet.add, Function.update_self] at hspent
        cases hspent
      refine ⟨?_, ?_, hp.blockDB, ?_, ?_, hp.kernels⟩
      · rw [List.map_cons, PruneableFiles.appendAll, hfiles]
        exact hp.outputs
      · rw [List.map_cons, PruneableFiles.appendAll, hproofs]
        exact hp.rangeProofs
      · rw [List.map_cons, List.nodup_cons]
        refine ⟨fun hin => ?_, hp.nodup⟩
        obtain ⟨o, ho, heq⟩ := List.mem_map.mp hin
        exact hne o ho heq
      · refine List.forall_mem_cons.mpr ⟨fun l hl => ?_, fun o ho l hl => ?_⟩
        · rw [hl] at hexists
          dsimp only at hexists
          rw [hshape.isUnpruned_eq] at hexists
          exact Bool.not_eq_true _ ▸ hexists
        · have hspent := hp.fresh o ho l (by
            simpa [BlockDB.getOutputPosition, BlockDB.addOutputPosition, hne o ho] using hl)
          change files.leafSet l.leafIndex = false at hspent
          rw [hset, LeafSet.add] at hspent
          by_cases heq : l.leafIndex = n
          · rw [heq, Function.update_self] at hspent
            cases hspent
          · rwa [Function.update_of_ne heq] at hspent

/-- The loop over the kernels. -/
theorem of_run_applyKernels {kernels : List TransactionKernel} {u : Unit}
    (h : run (applyKernels G kernels) s = (.ok u, s')) :
    s.txHashSet.kernelMMR.current.applyAll G kernels = .ok s'.txHashSet.kernelMMR.current ∧
      s'.blockDB = s.blockDB ∧ s'.txHashSet.outputPMMR = s.txHashSet.outputPMMR ∧
      s'.txHashSet.rangeProofPMMR = s.txHashSet.rangeProofPMMR := by
  rw [applyKernels] at h
  induction kernels generalizing s with
  | nil =>
    cases h
    exact ⟨rfl, rfl, rfl, rfl⟩
  | cons kernel kernels ih =>
    rw [run_forM_cons] at h
    obtain ⟨_, s₁, h₁, h⟩ := of_run_bind_ok h
    obtain ⟨files, hfiles, rfl⟩ := of_run_updateKernelMMR h₁
    obtain ⟨hk, hdb, ho, hr⟩ := ih h
    refine ⟨?_, hdb, ho, hr⟩
    rw [KernelFiles.applyAll, hfiles]
    exact hk

/-! ### The block -/

/-- What a block that was applied did. -/
structure Applied (G : Global) (s s' : UtxoState) (n : ℕ) (block : FullBlock)
    (locations : List OutputLocation) : Prop where
  /-- Each input has a position … -/
  found : List.Forall₂ (fun i l => s.blockDB.getOutputPosition i.commitment = some l)
    block.body.inputs locations
  /-- … with an unspent output … -/
  unspent : ∀ l ∈ locations, (s.txHashSet.outputPMMR.current.getAt l.leafIndex).isSome
  /-- … and a range proof, … -/
  unspentProof : ∀ l ∈ locations, s.txHashSet.rangeProofPMMR.current.leafSet l.leafIndex = true
  /-- … and no leaf is spent twice. -/
  nodup : (locations.map OutputLocation.leafIndex).Nodup
  /-- No new commitment occurs twice, … -/
  nodupOutputs : (block.body.outputs.map TransactionOutput.commitment).Nodup
  /-- … and each that has a position is that of an output that is spent. -/
  fresh : ∀ o ∈ block.body.outputs, ∀ l, s.blockDB.getOutputPosition o.commitment = some l →
    s.txHashSet.outputPMMR.current.leafSet l.leafIndex = false ∨
      l.leafIndex ∈ locations.map OutputLocation.leafIndex
  /-- The inputs are removed and the outputs appended, … -/
  outputs : (s.txHashSet.outputPMMR.current.removeAll
      (locations.map OutputLocation.leafIndex)).appendAll G OutputIdentifier.serialize
    (block.body.outputs.map OutputIdentifier.fromOutput) = .ok s'.txHashSet.outputPMMR.current
  /-- … with their range proofs, … -/
  rangeProofs : (s.txHashSet.rangeProofPMMR.current.removeAll
      (locations.map OutputLocation.leafIndex)).appendAll G RangeProof.serialize
    (block.body.outputs.map TransactionOutput.rangeProof) =
      .ok s'.txHashSet.rangeProofPMMR.current
  /-- … and the kernels. -/
  kernels : s.txHashSet.kernelMMR.current.applyAll G block.body.kernels =
    .ok s'.txHashSet.kernelMMR.current
  /-- The database notes the spent positions, the new ones, and forgets the old ones. -/
  blockDB : s'.blockDB =
    ((s.blockDB.addSpentPositions (block.getHash G)
      (spentOutputs block.body.inputs locations)).addOutputPositions block.getHeight n
        block.body.outputs).removeOutputPositions
          (block.body.inputs.map TransactionInput.commitment)
  /-- The header is the one of the block. -/
  header : s'.txHashSet.blockHeader = block.header

/-- **A block that was applied.** -/
theorem of_run_applyBlock {n : ℕ} {block : FullBlock}
    (hshape : s.txHashSet.outputPMMR.current.Shape n)
    (h : run (applyBlock G block) s = (.ok true, s')) :
    ∃ locations, Applied G s s' n block locations := by
  rw [applyBlock] at h
  obtain ⟨spent, s₁, h₁, h⟩ := of_run_bind_ok h
  rcases spent with _ | spent
  · cases h
  obtain ⟨locations, hp, hspent⟩ := of_run_pruneInputs h₁
  rw [List.nil_append] at hspent
  subst hspent
  dsimp only at h
  obtain ⟨_, s₂, h₂, h⟩ := of_run_bind_ok h
  cases h₂
  obtain ⟨appended, s₃, h₃, h⟩ := of_run_bind_ok h
  split at h
  rotate_left
  · cases h
  next happended =>
  subst happended
  have ha := of_run_appendOutputs (hp.outputs ▸ hshape.removeAll _) h₃
  obtain ⟨_, s₄, h₄, h⟩ := of_run_bind_ok h
  cases h₄
  obtain ⟨_, s₅, h₅, h⟩ := of_run_bind_ok h
  obtain ⟨hk, hdb, ho, hr⟩ := of_run_applyKernels h₅
  obtain ⟨_, s₆, h₆, h⟩ := of_run_bind_ok h
  cases h₆
  cases h
  refine ⟨locations, ⟨hp.found, hp.unspent, hp.unspentProof, hp.nodup, ha.nodup, ?_, ?_, ?_, ?_,
    ?_, rfl⟩⟩
  · intro o ho l hl
    have hspent := ha.fresh o ho l (by rw [← hl, ← hp.blockDB]; rfl)
    change s₁.txHashSet.outputPMMR.current.leafSet l.leafIndex = false at hspent
    rw [hp.outputs, PruneableFiles.removeAll, Bool.and_eq_false_iff] at hspent
    rcases hspent with hspent | hspent
    · exact .inl hspent
    · exact .inr (by simpa using hspent)
  · change _ = Except.ok s₅.txHashSet.outputPMMR.current
    rw [ho, ← hp.outputs]
    exact ha.outputs
  · change _ = Except.ok s₅.txHashSet.rangeProofPMMR.current
    rw [hr, ← hp.rangeProofs]
    exact ha.rangeProofs
  · rw [← hp.kernels]
    change s₃.txHashSet.kernelMMR.current.applyAll G block.body.kernels = _ at hk
    rw [ha.kernels] at hk
    exact hk
  · change s₅.blockDB = _
    rw [hdb, ← hp.blockDB]
    change s₃.blockDB.removeOutputPositions _ = _
    rw [ha.blockDB]

end TxHashSet

end GrinPlusPlus
