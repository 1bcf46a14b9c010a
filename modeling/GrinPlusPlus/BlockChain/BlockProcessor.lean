import GrinPlusPlus.BlockChain.BlockHeaderProcessor

/-!
# Processing blocks

`BlockProcessor`: a block is the next block of the confirmed chain, the tip of a fork whose
blocks are all there, or an orphan. The blocks of a fork come from the orphan pool or from
the database; they are applied to the rewound transaction hash set *before* it is decided
whether the fork wins.
-/

namespace GrinPlusPlus

namespace BlockProcessor

open ChainState

variable (G : Global) (now : ℤ)

/-- `EBlockStatus` with the blocks of a reorg. -/
inductive BlockProcessingInfo
  | nextBlock
  | reorg (reorgBlocks : List FullBlock)
  | orphan

/-- The loop of `BlockProcessor::DetermineBlockStatus`: the blocks from the confirmed chain
on, or `none` when one is missing. -/
def collectReorgBlocks (s : ChainState) : ℕ → FullBlock → List FullBlock →
    Except Exc (Option (List FullBlock))
  | 0, _, _ => .error .hang
  | passes + 1, forkBlock, reorgBlocks =>
    if s.confirmed.isOnChain (decrement forkBlock.getHeight) forkBlock.getPreviousHash then
      .ok (some reorgBlocks)
    else
      match s.orphanPool.getOrphanBlock G (decrement forkBlock.getHeight)
        forkBlock.getPreviousHash with
      | some block => collectReorgBlocks s passes block (block :: reorgBlocks)
      | none =>
        match s.blockDB.getBlock forkBlock.getPreviousHash with
        | some block => collectReorgBlocks s passes block (block :: reorgBlocks)
        | none => .ok none

/-- `BlockProcessor::DetermineBlockStatus`. -/
def determineBlockStatus (s : ChainState) (block : FullBlock) : Except Exc BlockProcessingInfo :=
  if (s.blockDB.getBlockHeader (block.getHash G)).isNone then .ok .orphan
  else if s.confirmed.getTipHash = block.getPreviousHash then .ok .nextBlock
  else do
    let reorgBlocks ← collectReorgBlocks G s G.loopBound block [block]
    match reorgBlocks with
    | some blocks => .ok (.reorg blocks)
    | none => .ok .orphan

/-- The checks and the bookkeeping of `BlockProcessor::ValidateAndAddBlock` on the database
and the hash set, up to the block being stored. -/
def applyAndValidate (block : FullBlock) : Exec Exc UtxoState Unit := do
  let applied ← TxHashSet.applyBlock G block
  if applied = false then
    throw (.badData .badBlock "Failed to apply block to the TxHashSet.")
  else do
    let s ← get
    if s.txHashSet.validateNRDKernelRules s.blockDB block = false then
      throw (.badData .badBlock "Failed to validate NRD kernel rules for block.")
    else do
      Exec.ofExcept (BlockValidator.verifySelfConsistent G block)
      let rootsValid ← Exec.ofExcept (s.txHashSet.validateRoots G block.header)
      if rootsValid = false then
        throw (.badData .badBlock "Failed to validate TxHashSet roots for block.")
      else
        match s.blockDB.getBlockSums block.getPreviousHash with
        | none => throw (.blockChain "Failed to retrieve block sums.")
        | some previousBlockSums => do
          let blockSums ← Exec.ofExcept (KernelSumValidator.validateKernelSums G block.body
            (-(Consensus.reward : ℤ)) block.header.totalKernelOffset (some previousBlockSums))
          TxHashSet.modifyDB (BlockDB.addBlockSums (block.getHash G) blockSums)
          TxHashSet.modifyDB (BlockDB.addBlock G block)

/-- `TransactionPool::ReconcileBlock`, called with the open batch. -/
def reconcileBlock (block : FullBlock) : Exec Exc ChainState Unit :=
  Exec.ofRun fun s =>
    match s.txHashSet with
    | none => (.error .undefined, s)
    | some t =>
      let (result, txPool) := s.txPool.reconcileBlock G ⟨s.blockDB, t⟩ block
      (result, { s with txPool := txPool })

/-- `BlockProcessor::ValidateAndAddBlock`. -/
def validateAndAddBlock (block : FullBlock) : Exec Exc ChainState Unit := do
  let s ← get
  match s.blockDB.getBlockHeader block.getPreviousHash with
  | none => throw (.blockChain "Previous header not found.")
  | some _ => do
    onTxHashSet (.badData .badBlock "Failed to apply block to the TxHashSet.")
      (applyAndValidate G block)
    modifyOrphanPool (OrphanPool.removeOrphan G block.getHeight (block.getHash G))
    reconcileBlock G block

/-- The part of `BlockProcessor::HandleReorg` in front of its decision: the rewind and the
blocks of the fork. -/
def applyReorg (reorgBlocks : List FullBlock) (first : FullBlock) : Exec Exc ChainState Unit := do
  let s ← get
  if s.txHashSet.isNone then throw (.blockChain "TxHashSet is null")
  else
    match s.blockDB.getBlockHeader first.getPreviousHash with
    | none => throw (.blockChain "Failed to find header.")
    | some commonHeader => do
      onTxHashSet (.blockChain "TxHashSet is null") (TxHashSet.rewind G commonHeader)
      reorgBlocks.forM (validateAndAddBlock G)

/-- The fork wins: the confirmed chain moves to it. -/
def confirmReorg (reorgBlocks : List FullBlock) (first : FullBlock) : Exec Exc ChainState Unit := do
  updateConfirmed (Chain.rewind (decrement first.getHeight))
  reorgBlocks.forM fun block =>
    updateConfirmed (Chain.addBlock (block.getHash G) block.getHeight)
  modify (ChainState.commit G)

/-- The fork does not win: everything is rolled back, and the blocks are stored. -/
def discardReorg (reorgBlocks : List FullBlock) : Exec Exc ChainState Unit := do
  modify ChainState.rollback
  reorgBlocks.forM fun block => modifyDB (BlockDB.addBlock G block)
  modifyDB (BlockDB.commit G)

/-- `BlockProcessor::HandleReorg`. -/
def handleReorg (reorgBlocks : List FullBlock) : Exec Exc ChainState Unit :=
  match reorgBlocks with
  | [] => throw .undefined
  | first :: _ => do
    let s ← get
    applyReorg G reorgBlocks first
    if s.getTotalDifficulty .confirmed <
        (reorgBlocks.getLast?.map (·.getTotalDifficulty)).getD 0 then
      confirmReorg G reorgBlocks first
    else discardReorg G reorgBlocks

/-- The end of `BlockProcessor::ProcessBlockInternal` for the next block. -/
def addNextBlock (block : FullBlock) : Exec Exc ChainState Unit := do
  validateAndAddBlock G block
  updateConfirmed (Chain.addBlock (block.getHash G) block.getHeight)
  modify (ChainState.commit G)

/-- The body of `BlockProcessor::ProcessBlockInternal` under the lock. -/
def processBlockLocked (block : FullBlock) : Exec Exc ChainState EBlockChainStatus := do
  let s ← get
  if s.confirmed.isOnChain block.getHeight (block.getHash G) then pure .alreadyExists
  else if (s.blockDB.getBlock (block.getHash G)).isSome then pure .alreadyExists
  else do
    let info ← Exec.ofExcept (determineBlockStatus G s block)
    match info with
    | .orphan =>
      if s.orphanPool.isOrphan G block.getHeight (block.getHash G) then pure .alreadyExists
      else do
        modifyOrphanPool (OrphanPool.addOrphanBlock G block)
        pure .orphaned
    | .reorg reorgBlocks => do
      handleReorg G reorgBlocks
      pure .success
    | .nextBlock => do
      addNextBlock G block
      pure .success

/-- `BlockProcessor::ProcessBlockInternal`. -/
def processBlockInternal (block : FullBlock) : Exec Exc ChainState EBlockChainStatus :=
  batch (processBlockLocked G block)

/-- `BlockProcessor::ProcessBlock`. -/
def processBlock (block : FullBlock) : Exec Exc ChainState EBlockChainStatus := do
  let s ← get
  if block.getHeight ≤ Consensus.getHorizonHeight s.candidate.getHeight then
    throw (.badData .badBlock "Can't process blocks beyond horizon.")
  else do
    let _ ← BlockHeaderProcessor.processSingleHeader G now block.header
    Exec.ofExcept (BlockValidator.verifySelfConsistent G block)
    processBlockInternal G block

/-- `BlockChain::ProcessNextOrphanBlock`. -/
def processNextOrphanBlock : Exec Exc ChainState Bool :=
  Exec.ofRun fun s =>
    let height := s.confirmed.getHeight + 1
    match s.getBlockHeaderByHeight height .candidate with
    | none => (.ok false, s)
    | some nextHeader =>
      match s.orphanPool.getOrphanBlock G height (nextHeader.getHash G) with
      | none => (.ok false, s)
      | some orphanBlock =>
        match Exec.run (processBlock G now orphanBlock) s with
        | (.ok status, t) => (.ok (decide (status = .success)), t)
        | (.error e, t) =>
          if e.Thrown then
            (.ok false,
              { t with
                orphanPool :=
                  t.orphanPool.removeOrphan G nextHeader.getHeight (nextHeader.getHash G) })
          else (.error e, t)

end BlockProcessor

end GrinPlusPlus
