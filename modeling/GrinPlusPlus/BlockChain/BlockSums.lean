import GrinPlusPlus.BlockChain.SmallChain
import GrinPlusPlus.BlockChain.StateSync
import GrinPlusPlus.Core.KernelSums
import GrinPlusPlus.Core.Serialization
import GrinPlusPlus.Pmmr.Rewind
import Mathlib.Algebra.BigOperators.Fin
import Mathlib.Algebra.BigOperators.Group.Finset.Basic
import Mathlib.Data.Nat.Digits.Lemmas
import Mathlib.Data.ZMod.Basic
import Mathlib.Tactic.Ring

/-!
# The sums of a block and the sums of the whole state

The sums of a chain are computed in two ways. `BlockProcessor::ValidateAndAddBlock` takes the
sums of the previous block, adds the outputs and kernels of the block and subtracts its inputs
and one reward. `TxHashSetValidator::ValidateKernelSums` adds up all outputs that are not spent
and all kernels, and subtracts one reward for each height.

`GrinPlusPlus.BlockSums.Balanced` says what the first way keeps: the sums of the last block
**are** those of the unspent leaves and of all kernels. It holds in the first state
(`GrinPlusPlus.BlockSums.balanced_create`) and is kept by every block
(`GrinPlusPlus.BlockSums.Balanced.acceptBlock`), so the second way finds the same sums
(`GrinPlusPlus.BlockSums.validateKernelSums_eq`), as long as the last header states the true
numbers of leaves and its own height.
-/

namespace GrinPlusPlus

namespace BlockSums

open TxHashSet PruneableFiles Exec Finset

/-! ### Accepting blocks -/

/-- The part of `BlockProcessor::ValidateAndAddBlock` that is about sums: the block is applied,
its sums are computed from the previous ones, and both are stored. -/
def acceptBlock (G : Global) (previousBlockSums : BlockSums) (block : FullBlock) :
    Exec Exc UtxoState (Option BlockSums) := do
  let applied ← applyBlock G block
  if applied then do
    let blockSums ← Exec.ofExcept (KernelSumValidator.validateKernelSums G block.body
      (-(Consensus.reward : ℤ)) block.header.totalKernelOffset (some previousBlockSums))
    modifyDB (BlockDB.addBlockSums (block.getHash G) blockSums)
    modifyDB (BlockDB.addBlock G block)
    pure (some blockSums)
  else pure none

/-- Block after block is accepted, each with the sums of the one before. -/
def acceptBlocks (G : Global) : BlockSums → List FullBlock → Exec Exc UtxoState (Option BlockSums)
  | sums, [] => pure (some sums)
  | sums, block :: blocks => do
    let blockSums ← acceptBlock G sums block
    match blockSums with
    | none => pure none
    | some blockSums => acceptBlocks G blockSums blocks

theorem of_run_acceptBlock {G : Global} {previous sums : BlockSums} {block : FullBlock}
    {s s' : UtxoState} (h : run (acceptBlock G previous block) s = (.ok (some sums), s')) :
    ∃ s₁, run (applyBlock G block) s = (.ok true, s₁) ∧
      KernelSumValidator.validateKernelSums G block.body (-(Consensus.reward : ℤ))
        block.header.totalKernelOffset (some previous) = .ok sums ∧
      s' = { s₁ with
        blockDB := (s₁.blockDB.addBlockSums (block.getHash G) sums).addBlock G block } := by
  rw [acceptBlock] at h
  obtain ⟨applied, s₁, h₁, h⟩ := of_run_bind_ok h
  split at h
  rotate_left
  · cases h
  next happlied =>
  subst happlied
  obtain ⟨blockSums, s₂, h₂, h⟩ := of_run_bind_ok h
  rw [run_ofExcept, Prod.mk.injEq] at h₂
  obtain ⟨hsums, rfl⟩ := h₂
  cases h
  exact ⟨s₁, h₁, hsums, rfl⟩

/-! ### Sums over leaves -/

variable {G : Global} {A : Type} [AddCommGroup A] (S : CommitmentGroup G A)

/-- The element of a leaf. -/
def leafVal (leaves : List OutputIdentifier) (i : ℕ) : A :=
  (leaves[i]?.map fun o => S.val o.commitment).getD 0

/-- The sum of the leaves whose bits are set. -/
def unspentSum (leaves : List OutputIdentifier) (bits : ℕ → Bool) : A :=
  ∑ i ∈ range leaves.length, if bits i then leafVal S leaves i else 0

theorem sum_leafVal (leaves : List OutputIdentifier) :
    ∑ i ∈ range leaves.length, leafVal S leaves i =
      S.sum (leaves.map OutputIdentifier.commitment) := by
  induction leaves with
  | nil => rfl
  | cons o leaves ih =>
    rw [List.length_cons, sum_range_succ', List.map_cons, S.sum_cons, ← ih, add_comm]
    rfl

/-- The sum of what a list selects by index. -/
theorem sum_filterMap_range (f : ℕ → Option OutputIdentifier) (n : ℕ) :
    S.sum (((List.range n).filterMap f).map OutputIdentifier.commitment) =
      ∑ i ∈ range n, ((f i).map fun o => S.val o.commitment).getD 0 := by
  induction n with
  | zero => rfl
  | succ n ih =>
    rw [List.range_succ, List.filterMap_append, List.map_append, S.sum_append, ih,
      sum_range_succ]
    congr 1
    rcases hf : f n with _ | o
    · simp [hf]
    · simp [hf]

/-- **Spent leaves** are taken off the sum. -/
theorem unspentSum_remove {leaves : List OutputIdentifier} {bits : ℕ → Bool} {spent : List ℕ}
    (hlt : ∀ i ∈ spent, i < leaves.length) (hbits : ∀ i ∈ spent, bits i = true)
    (hnodup : spent.Nodup) :
    unspentSum S leaves (fun i => bits i && !spent.contains i) =
      unspentSum S leaves bits - (spent.map (leafVal S leaves)).sum := by
  have hpoint : ∀ i, (if (bits i && !spent.contains i) = true then leafVal S leaves i else 0) =
      (if bits i then leafVal S leaves i else 0) -
        (if i ∈ spent then leafVal S leaves i else 0) := by
    intro i
    by_cases hi : i ∈ spent
    · rw [hbits i hi, List.contains_eq_mem, decide_eq_true hi, if_pos hi]
      simp
    · rw [List.contains_eq_mem, decide_eq_false hi, if_neg hi]
      simp
  have hspent : (range leaves.length).filter (· ∈ spent) = spent.toFinset := by
    ext i
    rw [mem_filter, mem_range, List.mem_toFinset]
    exact ⟨fun h => h.2, fun h => ⟨hlt i h, h⟩⟩
  rw [unspentSum, unspentSum, sum_congr rfl fun i _ => hpoint i, sum_sub_distrib]
  congr 1
  rw [← sum_filter, hspent, List.sum_toFinset _ hnodup]

/-- **New leaves** are added to the sum. -/
theorem unspentSum_append {leaves new : List OutputIdentifier} {bits bits' : ℕ → Bool}
    (hold : ∀ i < leaves.length, bits' i = bits i)
    (hnew : ∀ i < new.length, bits' (leaves.length + i) = true) :
    unspentSum S (leaves ++ new) bits' =
      unspentSum S leaves bits + S.sum (new.map OutputIdentifier.commitment) := by
  rw [unspentSum, List.length_append, sum_range_add, unspentSum, ← sum_leafVal]
  congr 1
  · refine sum_congr rfl fun i hi => ?_
    rw [mem_range] at hi
    rw [hold i hi, leafVal, leafVal, List.getElem?_append_left hi]
  · refine sum_congr rfl fun i hi => ?_
    rw [mem_range] at hi
    rw [hnew i hi, if_pos rfl, leafVal, leafVal,
      List.getElem?_append_right (Nat.le_add_right _ _), Nat.add_sub_cancel_left]

/-! ### The invariant -/

/-- The sums are those of the unspent leaves and of all kernels, for a number of rewards. -/
structure Balanced (s : UtxoState) (sums : BlockSums) (rewards : ℕ)
    (leaves : List OutputIdentifier) (kernels : List TransactionKernel) : Prop where
  /-- The leaves of the outputs. -/
  outputs : RangeOf G OutputIdentifier.serialize s.txHashSet.outputPMMR.current leaves
  /-- The kernels. -/
  kernelRange : KernelFiles.RangeOf G s.txHashSet.kernelMMR.current kernels
  /-- The positions are those of unspent outputs. -/
  positions : PointsToUnspent s
  /-- The sum of the outputs. -/
  outputSum : S.val sums.outputSum =
    unspentSum S leaves s.txHashSet.outputPMMR.current.leafSet -
      (rewards * Consensus.reward) • S.base
  /-- The sum of the kernels. -/
  kernelSum : S.val sums.kernelSum = S.sum (kernels.map TransactionKernel.excessCommitment)

variable {S} {s s' : UtxoState} {sums sums' : BlockSums} {rewards : ℕ}
  {leaves : List OutputIdentifier} {kernels : List TransactionKernel} {block : FullBlock}
  {locations : List OutputLocation}

/-- The positions after a block are those of unspent outputs. -/
theorem pointsToUnspent_applied (h : Applied G s s' leaves.length block locations)
    (houtputs : RangeOf G OutputIdentifier.serialize s.txHashSet.outputPMMR.current leaves)
    (hpositions : PointsToUnspent s) : PointsToUnspent s' := by
  have hrange := (houtputs.removeAll _).of_appendAll h.outputs
  have hsep := h.separate hpositions.separate houtputs.shape
  intro c l hc
  rw [hrange.getAt_eq, if_pos (hsep.unspent c l hc)]
  rcases h.of_getOutputPosition hc with ⟨-, hold⟩ | ⟨k, hk, hout, hl⟩
  · obtain ⟨o, ho, heq⟩ := hpositions c l hold
    refine ⟨o, ?_, heq⟩
    rw [houtputs.getAt_eq] at ho
    split at ho
    · rw [List.getElem?_append_left (List.getElem?_eq_some_iff.mp ho).1]
      exact ho
    · cases ho
  · refine ⟨OutputIdentifier.fromOutput block.body.outputs[k], ?_, hout⟩
    rw [hl, List.getElem?_append_right (Nat.le_add_right _ _), Nat.add_sub_cancel_left,
      List.getElem?_map, List.getElem?_eq_getElem hk]
    rfl

/-- The elements of the spent leaves are those of the inputs. -/
theorem sum_spent (h : Applied G s s' leaves.length block locations)
    (houtputs : RangeOf G OutputIdentifier.serialize s.txHashSet.outputPMMR.current leaves)
    (hpositions : PointsToUnspent s) :
    ((locations.map OutputLocation.leafIndex).map (leafVal S leaves)).sum =
      S.sum (spentCommitments block) := by
  have hfound := h.found
  rw [spentCommitments]
  clear h
  generalize block.body.inputs = inputs at hfound
  induction hfound with
  | nil => rfl
  | @cons input location inputs locations hposition _ ih =>
    obtain ⟨o, ho, hcommitment⟩ := hpositions _ _ hposition
    rw [houtputs.getAt_eq] at ho
    split at ho
    rotate_left
    · cases ho
    have hval : leafVal S leaves location.leafIndex = S.val input.commitment := by
      rw [leafVal, ho, ← hcommitment]
      rfl
    rw [List.map_cons, List.map_cons, List.map_cons, List.sum_cons, S.sum_cons, ih, hval]

/-- **A block keeps the balance.** -/
theorem Balanced.acceptBlock (hb : Balanced S s sums rewards leaves kernels)
    (h : run (acceptBlock G sums block) s = (.ok (some sums'), s')) :
    Balanced S s' sums' (rewards + 1)
      (leaves ++ block.body.outputs.map OutputIdentifier.fromOutput)
      (kernels ++ block.body.kernels) := by
  obtain ⟨s₁, happly, hsums, rfl⟩ := of_run_acceptBlock h
  obtain ⟨locations, ha⟩ := of_run_applyBlock hb.outputs.shape happly
  rw [KernelSumValidator.validateKernelSums,
    KernelSumValidator.validateCommitmentSums_eq_ok_iff S (by decide)] at hsums
  obtain ⟨hout, hker, -⟩ := hsums
  have hrange := (hb.outputs.removeAll _).of_appendAll ha.outputs
  refine ⟨hrange, hb.kernelRange.of_applyAll ha.kernels,
    fun c l hc => pointsToUnspent_applied ha hb.outputs hb.positions c l hc, ?_, ?_⟩
  · -- The inputs leave the unspent leaves, and the outputs join them.
    have hremove := unspentSum_remove S
      (fun i hi => hb.outputs.leafSet_lt i (ha.unspent_leaves i hi)) ha.unspent_leaves ha.nodup
    have happend : unspentSum S (leaves ++ block.body.outputs.map OutputIdentifier.fromOutput)
        s₁.txHashSet.outputPMMR.current.leafSet =
        unspentSum S leaves (fun i => s.txHashSet.outputPMMR.current.leafSet i &&
          !(locations.map OutputLocation.leafIndex).contains i) +
        S.sum ((block.body.outputs.map OutputIdentifier.fromOutput).map
          OutputIdentifier.commitment) := by
      refine unspentSum_append S (fun i hi => ?_) fun i hi => ?_
      · rw [ha.leafSet_eq hb.outputs.shape i, decide_eq_false (by omega), Bool.or_false]
      · rw [List.length_map] at hi
        rw [ha.leafSet_eq hb.outputs.shape, decide_eq_true (by omega), Bool.or_true]
    rw [hout, Option.map_some, Option.toList_some, S.sum_cons, S.sum_nil, hb.outputSum]
    refine Eq.trans ?_ (congrArg (· - _) happend.symm)
    rw [hremove, sum_spent ha hb.outputs hb.positions, List.map_map, spentCommitments,
      Nat.add_mul, Nat.one_mul, add_nsmul, neg_zsmul, natCast_zsmul]
    have hmap : (OutputIdentifier.commitment ∘ OutputIdentifier.fromOutput) =
        TransactionOutput.commitment := rfl
    rw [hmap]
    abel
  · rw [hker, Option.map_some, Option.toList_some, S.sum_cons, S.sum_nil, hb.kernelSum,
      List.map_append, S.sum_append]
    abel

/-- **A run of blocks keeps the balance.** -/
theorem Balanced.acceptBlocks {blocks : List FullBlock}
    (hb : Balanced S s sums rewards leaves kernels)
    (h : run (acceptBlocks G sums blocks) s = (.ok (some sums'), s')) :
    ∃ leaves' kernels', Balanced S s' sums' (rewards + blocks.length) leaves' kernels' := by
  induction blocks generalizing s sums rewards leaves kernels with
  | nil =>
    cases h
    exact ⟨leaves, kernels, hb⟩
  | cons block blocks ih =>
    rw [BlockSums.acceptBlocks] at h
    obtain ⟨blockSums, s₁, h₁, h⟩ := of_run_bind_ok h
    rcases blockSums with _ | blockSums
    · cases h
    · obtain ⟨leaves', kernels', hb'⟩ := ih (hb.acceptBlock h₁) h
      refine ⟨leaves', kernels', ?_⟩
      rwa [List.length_cons, Nat.add_comm blocks.length, ← Nat.add_assoc]

/-! ### The first state -/

/-- **The first state is balanced**, with one reward. -/
theorem balanced_create (S : CommitmentGroup G A) {s₀ : ChainState}
    (h : ChainState.create G = .ok s₀) :
    ∃ t sums leaves kernels, s₀.txHashSet = some t ∧
      s₀.blockDB.getBlockSums (G.genesisBlock.header.getHash G) = some sums ∧
      Balanced S ⟨s₀.blockDB, t⟩ sums 1 leaves kernels := by
  obtain ⟨output, -, h⟩ := of_bind_eq_ok h
  obtain ⟨kernel, -, h⟩ := of_bind_eq_ok h
  obtain ⟨headerMMR, -, h⟩ := of_bind_eq_ok h
  obtain ⟨kernelFiles, hkernels, h⟩ := of_bind_eq_ok h
  obtain ⟨outputFiles, houtputs, h⟩ := of_bind_eq_ok h
  obtain ⟨rangeProofFiles, -, h⟩ := of_bind_eq_ok h
  obtain ⟨rewardCommitment, hreward, h⟩ := of_bind_eq_ok h
  obtain ⟨outputSum, hsum, h⟩ := of_bind_eq_ok h
  cases h
  have hnoKernels : KernelFiles.RangeOf G ⟨[], []⟩ [] := ⟨Mountain.isRange_nil, rfl⟩
  have hnoOutputs : RangeOf G OutputIdentifier.serialize ⟨[], fun _ => false, .empty, []⟩ [] :=
    ⟨Mountain.isRange_nil, rfl, rfl, fun i hi => by cases hi⟩
  obtain ⟨kernelFiles', hk', hkernelRange⟩ := hnoKernels.applyKernel_ok kernel
  obtain ⟨outputFiles', ho', houtputRange, hbits⟩ :=
    hnoOutputs.append_ok (OutputIdentifier.fromOutput output)
  rw [hkernels] at hk'
  rw [ChainState.genesisFiles] at houtputs
  rw [houtputs] at ho'
  cases hk'
  cases ho'
  obtain ⟨c, hc, hcval⟩ := S.commitTransparent_ok (by decide : Consensus.reward < 2 ^ 64)
  rw [hreward] at hc
  cases hc
  obtain ⟨c, hc, hval⟩ := S.addCommitments_ok [output.commitment] [rewardCommitment]
  rw [hsum] at hc
  cases hc
  refine ⟨_, ⟨outputSum, kernel.excessCommitment⟩, _, _, rfl, ?_, houtputRange, hkernelRange, ?_,
    ?_, ?_⟩
  · rw [BlockDB.getBlockSums, BlockDB.commit, Batch.commit_current,
      (onlyPositions_saveOutputPositions _ _ _).current]
    dsimp only [Batch.of_current]
    rw [Function.update_self]
  · -- The table was empty, so its entries are those of the leaves.
    intro c l hl
    rw [BlockDB.getOutputPosition, BlockDB.commit, Batch.commit_current] at hl
    rcases StateSync.entered_saveOutputPositions _ _ _ c with
      ⟨i, o, height, ho, hcommitment, -, htable⟩ | ⟨-, htable⟩
    · rw [htable, Option.some_inj] at hl
      rw [← hl]
      exact ⟨o, ho, hcommitment⟩
    · rw [htable] at hl
      cases hl
  · rw [hval, S.sum_cons, S.sum_nil, S.sum_cons, S.sum_nil, hcval, Nat.one_mul, add_zero,
      add_zero]
    congr 1
    change _ = unspentSum S [OutputIdentifier.fromOutput output] outputFiles.leafSet
    rw [hbits, unspentSum, List.length_singleton, sum_range_one]
    rfl
  · rw [List.nil_append, List.map_singleton, S.sum_cons, S.sum_nil, add_zero]

/-! ### The whole state -/

theorem filterMap_range_getElem? {α : Type} (l : List α) :
    (List.range l.length).filterMap (fun i => l[i]?) = l := by
  induction l with
  | nil => rfl
  | cons a l ih =>
    rw [List.length_cons, List.range_succ_eq_map, List.filterMap_cons]
    simp only [List.getElem?_cons_zero, List.filterMap_map, Function.comp_def,
      List.getElem?_cons_succ, ih]

/-- What the last block of a run leaves behind. -/
theorem of_run_acceptBlocks_getLast {blocks : List FullBlock} {last : FullBlock}
    (hlast : blocks.getLast? = some last)
    (hb : Balanced S s sums rewards leaves kernels)
    (h : run (acceptBlocks G sums blocks) s = (.ok (some sums'), s')) :
    s'.blockDB.getBlockSums (last.getHash G) = some sums' ∧
      KernelSumValidator.addKernelOffset G sums'.kernelSum last.header.totalKernelOffset =
        .ok sums'.outputSum := by
  induction blocks generalizing s sums rewards leaves kernels with
  | nil => cases hlast
  | cons block blocks ih =>
    rw [acceptBlocks] at h
    obtain ⟨blockSums, s₁, h₁, h⟩ := of_run_bind_ok h
    rcases blockSums with _ | blockSums
    · cases h
    · rcases blocks with _ | ⟨next, blocks⟩
      · cases hlast
        cases h
        obtain ⟨s₂, -, hsums, rfl⟩ := of_run_acceptBlock h₁
        rw [KernelSumValidator.validateKernelSums,
          KernelSumValidator.validateCommitmentSums_eq_ok_iff S (by decide)] at hsums
        refine ⟨?_, hsums.2.2⟩
        simp [BlockDB.getBlockSums, BlockDB.addBlock, BlockDB.addBlockSums]
      · rw [List.getLast?_cons_cons] at hlast
        exact ih hlast (hb.acceptBlock h₁) h

/-- **The sums of the last block are those of the whole state**, and the check of the whole
state passes, when the last header states the true numbers of outputs and kernels and its
height is the number of blocks. -/
theorem validateKernelSums_eq (S : CommitmentGroup G A) {s₀ : ChainState} {t₀ : TxHashSet}
    {sums₀ sums : BlockSums} (hcreate : ChainState.create G = .ok s₀)
    (ht : s₀.txHashSet = some t₀)
    (hsums : s₀.blockDB.getBlockSums (G.genesisBlock.header.getHash G) = some sums₀)
    {blocks : List FullBlock} {last : FullBlock} (hlast : blocks.getLast? = some last)
    (h : run (acceptBlocks G sums₀ blocks) ⟨s₀.blockDB, t₀⟩ = (.ok (some sums), s'))
    (hnumOutputs : last.header.getNumOutputs =
      s'.txHashSet.outputPMMR.current.dataFile.length)
    (hnumKernels : last.header.getNumKernels = s'.txHashSet.kernelMMR.current.dataFile.length)
    (hheight : last.getHeight = blocks.length)
    (hbound : Consensus.reward * (1 + blocks.length) < 2 ^ 63) :
    s'.blockDB.getBlockSums (last.getHash G) = some sums ∧
      TxHashSetValidator.validateKernelSums G s'.txHashSet last.header = .ok sums := by
  obtain ⟨t, sums₁, leaves₀, kernels₀, ht', hsums', hb₀⟩ := balanced_create S hcreate
  rw [ht, Option.some_inj] at ht'
  rw [hsums, Option.some_inj] at hsums'
  subst ht' hsums'
  obtain ⟨hstored, hoffset⟩ := of_run_acceptBlocks_getLast hlast hb₀ h
  obtain ⟨leaves, kernels, hb⟩ := hb₀.acceptBlocks h
  refine ⟨hstored, ?_⟩
  rw [hb.outputs.dataFile_eq] at hnumOutputs
  rw [hb.kernelRange.dataFile_eq] at hnumKernels
  have hoverage : (-(Consensus.reward * (1 + last.header.getHeight) : ℤ)).bmod (2 ^ 64) =
      -((Consensus.reward * (1 + blocks.length) : ℕ) : ℤ) := by
    have hcast : (Consensus.reward * (1 + last.header.getHeight) : ℤ) =
        ((Consensus.reward * (1 + blocks.length) : ℕ) : ℤ) := by
      rw [show last.header.getHeight = blocks.length from hheight]
      push_cast
      rfl
    rw [hcast]
    refine Int.bmod_eq_of_le_mul_two ?_ ?_
    · omega
    · omega
  have houtputs : S.sum ((TxHashSetValidator.unspentOutputs s'.txHashSet
      last.header.getNumOutputs).map OutputIdentifier.commitment) =
      unspentSum S leaves s'.txHashSet.outputPMMR.current.leafSet := by
    rw [TxHashSetValidator.unspentOutputs, sum_filterMap_range, hnumOutputs, unspentSum]
    refine sum_congr rfl fun i _ => ?_
    rw [hb.outputs.getAt_eq]
    split
    · rfl
    · rfl
  have hkernels : ((List.range last.header.getNumKernels).filterMap fun i =>
      s'.txHashSet.kernelMMR.current.getKernelAt i) = kernels := by
    simp only [KernelFiles.getKernelAt, hb.kernelRange.dataFile_eq, hnumKernels]
    exact filterMap_range_getElem? kernels
  obtain ⟨outputSums, hos, hosum⟩ := KernelSumValidator.appendChunkSums_ok S
    ((TxHashSetValidator.unspentOutputs s'.txHashSet last.header.getNumOutputs).map
      OutputIdentifier.commitment)
  obtain ⟨excessSums, hes, hesum⟩ := KernelSumValidator.appendChunkSums_ok S
    (kernels.map TransactionKernel.excessCommitment)
  rw [TxHashSetValidator.validateKernelSums, hoverage, hkernels, hos, hes]
  refine (KernelSumValidator.validateCommitmentSums_eq_ok_iff S ?_).mpr ⟨?_, ?_, hoffset⟩
  · omega
  · rw [hb.outputSum, hosum, houtputs, Option.map_none, Option.toList_none, S.sum_nil, sub_zero,
      add_zero, neg_zsmul, natCast_zsmul, Nat.mul_comm, sub_eq_add_neg]
  · rw [hb.kernelSum, hesum, Option.map_none, Option.toList_none, S.sum_nil, add_zero]

/-! ### The small network -/

section SmallSums

open SmallNet

/-- The number of a string of bytes by its digits. -/
theorem number_eq_ofDigits {n : ℕ} (c : CBigInteger n) :
    number c = Nat.ofDigits 256 (c.bytes.reverse.map UInt8.toNat) := by
  rw [number, List.foldl_eq_foldr_reverse, Nat.ofDigits_eq_foldr, List.foldr_map]
  congr 1
  funext b m
  exact Nat.add_comm _ _

theorem digits_lt (bytes : List UInt8) : ∀ d ∈ bytes.map UInt8.toNat, d < 256 := by
  intro d hd
  obtain ⟨b, -, rfl⟩ := List.mem_map.mp hd
  exact b.toNat_lt

/-- The number of commitments. -/
def modulus : ℕ := 256 ^ 33

theorem two_pow_eq_modulus : 2 ^ 264 = modulus := by
  rw [modulus, show 264 = 8 * 33 from rfl, pow_mul]
  rfl

theorem number_lt (c : Commitment) : number c < modulus := by
  have h := Nat.ofDigits_lt_base_pow_length (by decide : 1 < 256)
    (digits_lt c.bytes.reverse)
  rw [number_eq_ofDigits]
  rwa [List.length_map, List.length_reverse, c.length_eq] at h

theorem number_injective {c d : Commitment} (h : number c = number d) : c = d := by
  rw [number_eq_ofDigits, number_eq_ofDigits] at h
  have hlen : (c.bytes.reverse.map UInt8.toNat).length =
      (d.bytes.reverse.map UInt8.toNat).length := by
    simp [c.length_eq, d.length_eq]
  have hdigits := Nat.ofDigits_inj_of_len_eq (by decide) hlen (digits_lt _) (digits_lt _) h
  refine CBigInteger.ext_bytes (List.reverse_injective ?_)
  exact List.map_injective_iff.mpr (fun a b hab => UInt8.toNat_inj.mp hab) hdigits

theorem number_commitment (n : ℕ) : number (commitment n) = n % modulus := by
  rw [number, commitment, foldl_beBytes, Nat.zero_mul, Nat.zero_add, modulus]

theorem sum_number_le (cs : List Commitment) : (cs.map number).sum ≤ modulus * cs.length := by
  induction cs with
  | nil => simp
  | cons c cs ih =>
    have := number_lt c
    rw [List.map_cons, List.sum_cons, List.length_cons, Nat.mul_succ]
    omega

theorem cast_sum_number (cs : List Commitment) :
    (((cs.map number).sum : ℕ) : ZMod modulus) =
      (cs.map fun c => (number c : ZMod modulus)).sum := by
  rw [Nat.cast_list_sum, List.map_map]
  rfl

theorem cast_number_commitment (n : ℕ) : (number (commitment n) : ZMod modulus) = n := by
  rw [number_commitment, ZMod.natCast_mod]

/-- **The commitments of the small network are a group**: the numbers modulo a power of 256. -/
def smallGroup (env : Environment) : CommitmentGroup (smallNet env) (ZMod modulus) where
  val := fun c => number c
  val_injective := by
    intro c d h
    have hmod := (ZMod.natCast_eq_natCast_iff' _ _ _).mp h
    rw [Nat.mod_eq_of_lt (number_lt c), Nat.mod_eq_of_lt (number_lt d)] at hmod
    exact number_injective hmod
  addCommitments := by
    intro positive negative
    refine ⟨_, rfl, ?_⟩
    have hle := sum_number_le negative
    rw [cast_number_commitment, two_pow_eq_modulus, Nat.cast_sub (by omega), Nat.cast_add,
      Nat.cast_mul, ZMod.natCast_self, zero_mul, add_zero, cast_sum_number, cast_sum_number]
  base := 1
  commitTransparent := by
    intro value _
    refine ⟨_, rfl, ?_⟩
    rw [SmallNet.commit, cast_number_commitment, nsmul_one, show number noBlind = 0 from by decide,
      Nat.mul_zero, Nat.add_zero]

/-- The first state, as a pair. -/
def genesisUtxo : UtxoState :=
  ⟨genesis.blockDB, genesis.txHashSet.getD ⟨Batch.of ⟨[], []⟩,
    Batch.of ⟨[], fun _ => false, .empty, []⟩, Batch.of ⟨[], fun _ => false, .empty, []⟩,
    genesisHeader, genesisHeader⟩⟩

/-- The first sums. -/
def genesisSums : BlockSums :=
  (genesis.blockDB.getBlockSums (genesisHeader.getHash testNet)).getD
    ⟨commitment 0, commitment 0⟩

theorem genesis_txHashSet : genesis.txHashSet = some genesisUtxo.txHashSet := by
  obtain ⟨t, -, -, -, ht, -⟩ := balanced_create (smallGroup _) create_eq
  rw [genesisUtxo, ht, Option.getD_some]

theorem genesis_getBlockSums :
    genesis.blockDB.getBlockSums (genesisHeader.getHash testNet) = some genesisSums := by
  obtain ⟨-, sums, -, -, -, hsums, -⟩ := balanced_create (smallGroup _) create_eq
  rw [genesisSums, show genesis.blockDB.getBlockSums (genesisHeader.getHash testNet) = some sums
    from hsums, Option.getD_some]

/-- The outcome of some blocks on top of the first state. -/
def accepted (blocks : List FullBlock) : Option BlockSums :=
  (run (acceptBlocks testNet genesisSums blocks) genesisUtxo).1.toOption.join

/-- The state behind some blocks. -/
def behind (blocks : List FullBlock) : UtxoState :=
  (run (acceptBlocks testNet genesisSums blocks) genesisUtxo).2

theorem run_of_accepted {blocks : List FullBlock} {sums : BlockSums}
    (h : accepted blocks = some sums) :
    run (acceptBlocks testNet genesisSums blocks) genesisUtxo =
      (.ok (some sums), behind blocks) := by
  rw [accepted] at h
  refine Prod.ext ?_ rfl
  rcases hr : (run (acceptBlocks testNet genesisSums blocks) genesisUtxo).1 with e | r
  · rw [hr] at h
    cases h
  · rw [hr] at h
    exact congrArg Except.ok h

theorem isSome_accepted_block₁ : (accepted [block₁]).isSome = true := by
  decide +kernel

/-- The sums of the first block are those of the state behind it. -/
theorem validateKernelSums_block₁ :
    ∃ sums, accepted [block₁] = some sums ∧
      TxHashSetValidator.validateKernelSums testNet (behind [block₁]).txHashSet block₁.header =
        .ok sums := by
  obtain ⟨sums, hsums⟩ := Option.isSome_iff_exists.mp isSome_accepted_block₁
  refine ⟨sums, hsums, ?_⟩
  exact (validateKernelSums_eq (smallGroup _) create_eq genesis_txHashSet genesis_getBlockSums
    rfl (run_of_accepted hsums) (by decide +kernel) (by decide +kernel) (by decide +kernel)
    (by decide)).2

/-- The first block with a header that states other numbers. -/
def falseBlock (outputMMRSize height : UInt64) : FullBlock :=
  { block₁ with
    header := { block₁.header with outputMMRSize := outputMMRSize, height := height } }

/-- **Both conditions are needed**: the blocks are accepted, but the check of the whole state
fails when their headers state no outputs, or another height. -/
theorem not_validateKernelSums_falseBlock :
    ((accepted [falseBlock 0 1]).isSome = true ∧
      ∀ sums, TxHashSetValidator.validateKernelSums testNet
        (behind [falseBlock 0 1]).txHashSet (falseBlock 0 1).header ≠ .ok sums) ∧
    (accepted [falseBlock 3 7]).isSome = true ∧
      ∀ sums, TxHashSetValidator.validateKernelSums testNet
        (behind [falseBlock 3 7]).txHashSet (falseBlock 3 7).header ≠ .ok sums := by
  have hfails : ∀ {x : Except Exc BlockSums}, x.toOption.isSome = false →
      ∀ sums, x ≠ .ok sums := by
    rintro x hx sums rfl
    cases hx
  exact ⟨⟨by decide +kernel, hfails (by decide +kernel)⟩, by decide +kernel,
    hfails (by decide +kernel)⟩

end SmallSums

end BlockSums

end GrinPlusPlus
