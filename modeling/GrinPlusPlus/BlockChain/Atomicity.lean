import GrinPlusPlus.BlockChain.BlockSpec
import GrinPlusPlus.BlockChain.SmallChain

/-!
# What a block that is not confirmed leaves behind

A call of `BlockProcessor::ProcessBlock` whose block does not join the confirmed chain
(`GrinPlusPlus.BlockProcessor.NotConfirmed`): it throws – at any of the many places where it
can –, or the block is an orphan or known already, or it is the tip of a fork that does not
have more total difficulty.

* The **confirmed state** is then exactly what it was
  (`GrinPlusPlus.BlockProcessor.confirmedUntouched_of_notConfirmed`): the batch undoes what
  `ApplyBlock`, `Rewind` and `AddBlock` had done.
* The **pools** are outside of the batch.
-/

namespace GrinPlusPlus

open Exec

/-- The confirmed chain, the transaction hash set and the tables that belong to them are the
same, and nothing is pending. Everything else – headers, the candidate chain, stored blocks
and the pools – may differ. -/
structure ConfirmedUntouched (s t : ChainState) : Prop where
  /-- The confirmed chain. -/
  confirmed : t.confirmed = s.confirmed
  /-- The three ranges, their leaf sets and the header of the hash set. -/
  txHashSet : t.txHashSet = s.txHashSet
  /-- The positions of the outputs. -/
  outputPos : t.blockDB.tables.current.outputPos = s.blockDB.tables.current.outputPos
  /-- The spent positions. -/
  spentOutputs : t.blockDB.tables.current.spentOutputs = s.blockDB.tables.current.spentOutputs
  /-- The block sums. -/
  blockSums : t.blockDB.tables.current.blockSums = s.blockDB.tables.current.blockSums
  /-- Nothing is pending. -/
  atRest : t.AtRest

theorem HeadersOnly.confirmedUntouched {s u : ChainState} (h : HeadersOnly s u) :
    ConfirmedUntouched s u := by
  refine ⟨?_, ?_, ?_, ?_, ?_, h.atRest⟩
  · rw [h.eq]
  · rw [h.eq]
  · rw [h.tables]
  · rw [h.tables]
  · rw [h.tables]

theorem ConfirmedUntouched.trans {s u t : ChainState} (h : ConfirmedUntouched s u)
    (h' : ConfirmedUntouched u t) : ConfirmedUntouched s t where
  confirmed := h'.confirmed.trans h.confirmed
  txHashSet := h'.txHashSet.trans h.txHashSet
  outputPos := h'.outputPos.trans h.outputPos
  spentOutputs := h'.spentOutputs.trans h.spentOutputs
  blockSums := h'.blockSums.trans h.blockSums
  atRest := h'.atRest

theorem confirmedUntouched_of_pools {s t : ChainState} (hs : s.AtRest)
    (h : t = t.withPoolsOf s) : ConfirmedUntouched s t := by
  rw [h]
  exact ⟨rfl, rfl, rfl, rfl, rfl, ⟨hs.1, hs.2, hs.3, hs.4, hs.5⟩⟩

namespace BlockProcessor

open ChainState

variable {G : Global} {now : ℤ} {s t : ChainState}

variable (G) in
/-- The block is the tip of a fork that does not have more total difficulty than the confirmed
chain. -/
def LosesFork (s : ChainState) (block : FullBlock) : Prop :=
  (∃ blocks, determineBlockStatus G s block = .ok (.reorg blocks)) ∧
    block.getTotalDifficulty ≤ s.getTotalDifficulty .confirmed

variable (G) in
/-- The outcomes of `ProcessBlock` after which the block is not on the confirmed chain. -/
inductive NotConfirmed (now : ℤ) (s : ChainState) (block : FullBlock) :
    Except Exc EBlockChainStatus → Prop
  | throws (e : Exc) (h : e.Thrown) : NotConfirmed now s block (.error e)
  | orphaned : NotConfirmed now s block (.ok .orphaned)
  | alreadyExists : NotConfirmed now s block (.ok .alreadyExists)
  | losesFork (h : LosesFork G
      (run (BlockHeaderProcessor.processSingleHeader G now block.header) s).2 block) :
    NotConfirmed now s block (.ok .success)

/-- A fork that lost. -/
theorem confirmedUntouched_of_losesFork {block : FullBlock} {blocks : List FullBlock}
    {w : ChainState} (hs : s.AtRest) (hinfo : determineBlockStatus G s block = .ok (.reorg blocks))
    (hle : block.getTotalDifficulty ≤ s.getTotalDifficulty .confirmed)
    (hw : run (handleReorg G blocks) s = (.ok (), w)) : ConfirmedUntouched s w.rollback := by
  obtain ⟨first, v, -, hv, hend⟩ :=
    of_run_handleReorg (getLast?_of_determineBlockStatus hinfo) hw
  rcases hend with ⟨hlt, -⟩ | ⟨-, hdiscard⟩
  · exact absurd hlt (Nat.not_lt.mpr hle)
  · have heq := rollback_of_run_discardReorg hs hv hdiscard
    obtain ⟨block, htables, -, -⟩ := addBlocks_eq (G := G) blocks s.blockDB
    have hcur : w.rollback.blockDB.tables.current =
        { s.blockDB.tables.current with block := block } := by
      rw [heq]
      dsimp only [BlockDB.commit]
      rw [Batch.commit_current, htables]
    refine ⟨?_, ?_, ?_, ?_, ?_, rollback_atRest w⟩
    · rw [heq]
      rfl
    · rw [heq]
      rfl
    · rw [hcur]
    · rw [hcur]
    · rw [hcur]

/-- **A block that is not confirmed leaves the confirmed state alone**, wherever the call
stopped. -/
theorem confirmedUntouched_of_notConfirmed {block : FullBlock}
    {r : Except Exc EBlockChainStatus} (hs : s.AtRest)
    (hrun : run (processBlock G now block) s = (r, t)) (hr : NotConfirmed G now s block r) :
    ConfirmedUntouched s t := by
  rcases processBlock_cases hs hrun with
    ⟨honly, -⟩ | ⟨-, status, u, hheader, honly, -, hblock⟩
  · exact honly.confirmedUntouched
  · refine honly.confirmedUntouched.trans ?_
    rcases processBlockInternal_cases honly.atRest hblock with ⟨-, ht⟩ | ⟨rfl, w, rfl, hend⟩
    · exact confirmedUntouched_of_pools honly.atRest ht
    · -- Only a fork that lost gives this status without confirming a block.
      cases hr with
      | losesFork h =>
        rw [hheader] at h
        obtain ⟨⟨blocks, hinfo⟩, hle⟩ := h
        rcases hend with ⟨hnext, -⟩ | ⟨blocks', hinfo', hw⟩
        · rw [hinfo] at hnext
          cases hnext
        · exact confirmedUntouched_of_losesFork honly.atRest hinfo' hle hw

/-- For the block of an unknown header. -/
theorem confirmedUntouched_block₂ :
    ConfirmedUntouched SmallNet.genesis (SmallNet.after SmallNet.genesis SmallNet.block₂) := by
  have hrun : SmallNet.outcome SmallNet.genesis SmallNet.block₂ = .ok .orphaned := by
    decide +kernel
  exact confirmedUntouched_of_notConfirmed SmallNet.genesis_atRest
    (SmallNet.run_processBlock _ _) (hrun ▸ .orphaned)

/-- Nothing but headers, the candidate chain and stored blocks differs. -/
structure OnlyHeadersAndBlocks (s t : ChainState) : Prop extends ConfirmedUntouched s t where
  /-- The blocks of the orphan pool. -/
  orphans : t.orphanPool.orphans = s.orphanPool.orphans
  /-- The transaction pools. -/
  txPool : t.txPool = s.txPool

/-- A block whose ancestor is missing is kept in the orphan pool. -/
theorem not_onlyHeadersAndBlocks_orphan :
    NotConfirmed SmallNet.testNet SmallNet.noon SmallNet.genesis SmallNet.block₂
        (SmallNet.outcome SmallNet.genesis SmallNet.block₂) ∧
      ¬OnlyHeadersAndBlocks SmallNet.genesis
        (SmallNet.after SmallNet.genesis SmallNet.block₂) := by
  have hrun : SmallNet.outcome SmallNet.genesis SmallNet.block₂ = .ok .orphaned := by
    decide +kernel
  have hpool : (SmallNet.after SmallNet.genesis SmallNet.block₂).orphanPool.orphans ≠
      SmallNet.genesis.orphanPool.orphans := by
    decide +kernel
  refine ⟨hrun ▸ .orphaned, fun h => hpool h.orphans⟩

end BlockProcessor

end GrinPlusPlus
