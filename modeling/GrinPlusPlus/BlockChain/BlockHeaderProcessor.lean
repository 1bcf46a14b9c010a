import GrinPlusPlus.BlockChain.ChainState
import GrinPlusPlus.Pow.PowValidator

/-!
# Processing headers

`BlockHeaderValidator`, `BlockHeaderProcessor` and `ChainResyncer`: the three ways in which
the candidate chain and the header MMR change. A null pointer that the source would
dereference ends the call with `GrinPlusPlus.Exc.undefined`. The clock is an argument of
every call.
-/

namespace GrinPlusPlus

/-- `BAD_BLOCKS`. -/
def badBlocks : List Hash :=
  [⟨0x0002897182d8cf7631e86d56ad546b7cf0893bda811592aa9312ae633ce04813⟩]

/-- `BlockHeaderValidator::IsPoWValid`. -/
def BlockHeaderValidator.isPoWValid (G : Global) (lookup : HeaderLookup)
    (header previous : BlockHeader) : Except Exc Bool :=
  if G.isAutomatedTesting then .ok true else PoWValidator.isPoWValid G lookup header previous

/-- `BlockHeaderValidator::Validate`. -/
def BlockHeaderValidator.validate (G : Global) (now : ℤ) (lookup : HeaderLookup) (mmr : HeaderMMR)
    (header previous : BlockHeader) : Except Exc Unit := do
  require (header.height = previous.height + 1)
    (.badData .badBlockHeader "Invalid height for header")
  require (header.getTimestamp ≤ Consensus.getMaxBlockTime G now)
    (.badData .badBlockHeader "Timestamp beyond maxBlockTime for header")
  require (header.version.toNat = Consensus.getHeaderVersion G.env header.getHeight)
    (.badData .badBlockHeader "Invalid version for header")
  require (previous.getTimestamp < header.getTimestamp)
    (.badData .badBlockHeader "Timestamp not after previous for header")
  let validPoW ← isPoWValid G lookup header previous
  require (validPoW = true) (.badData .badBlockHeader "Invalid Proof of Work for header")
  let root ← mmr.root G (decrement header.getHeight)
  require (root = header.previousRoot)
    (.badData .badBlockHeader "Invalid Header MMR Root for header")

namespace BlockHeaderProcessor

open ChainState

variable (G : Global) (now : ℤ)

/-- `SYNC_BATCH_SIZE`. -/
def syncBatchSize : ℕ := 512

/-- Validate a header in the current state, and note that it was accepted. -/
def validate (header previous : BlockHeader) : Exec Exc ChainState Unit := do
  let s ← get
  Exec.ofExcept (BlockHeaderValidator.validate G now s.blockDB.getBlockHeader s.headerMMR
    header previous)
  modify fun s => { s with accepted := s.accepted ++ [header] }

/-- The loop of `BlockHeaderProcessor::ValidateHeaders`. -/
def validateEach : List BlockHeader → BlockHeader → Exec Exc ChainState Unit
  | [], _ => pure ()
  | header :: headers, previous => do
    validate G now header previous
    updateHeaderMMR (HeaderMMR.addHeader G header)
    modifyDB (BlockDB.addBlockHeader G header)
    updateCandidate (Chain.addBlock (header.getHash G) header.getHeight)
    validateEach headers header

/-- `BlockHeaderProcessor::ValidateHeaders`. -/
def validateHeaders (headers : List BlockHeader) : Exec Exc ChainState Unit :=
  match headers with
  | [] => throw .undefined
  | first :: _ => do
    let s ← get
    match s.blockDB.getBlockHeader first.previousHash with
    | none => throw (.blockChain "Previous header not found.")
    | some previous => validateEach G now headers previous

/-- The candidate chain and the header MMR are rolled back when the total difficulty did not
increase. -/
def rollbackUnlessMore (lastDifficulty totalDifficulty : ℕ) : Exec Exc ChainState Unit :=
  if lastDifficulty ≤ totalDifficulty then
    modify fun s =>
      { s with headerMMR := s.headerMMR.rollback, candidate := s.candidate.rollback }
  else pure ()

/-- The candidate chain and the header MMR go back to where the headers start, the headers
are validated and added, and the two are restored when the last header does not have more
total difficulty than the candidate chain had. The common end of `ProcessOrphan` and of
`ProcessChunkedSyncHeaders`. -/
def adoptHeaders (headers : List BlockHeader) (lastDifficulty totalDifficulty : ℕ) :
    Exec Exc ChainState EBlockChainStatus :=
  match headers with
  | [] => throw .undefined
  | first :: _ => do
    updateCandidate (Chain.rewind (decrement first.getHeight))
    updateHeaderMMR (HeaderMMR.rewind first.getHeight)
    validateHeaders G now headers
    rollbackUnlessMore lastDifficulty totalDifficulty
    modify (ChainState.commit G)
    pure .success

/-- The loop of `BlockHeaderProcessor::ProcessOrphan`: the headers from the candidate chain
on, or `none` when one is missing. -/
def collectReorgHeaders : ℕ → BlockHeader → List BlockHeader →
    Exec Exc ChainState (Option (List BlockHeader))
  | 0, _, _ => throw .hang
  | passes + 1, tempHeader, reorgHeaders => do
    let s ← get
    if s.candidate.isOnChain tempHeader.getHeight (tempHeader.getHash G) then
      pure (some reorgHeaders)
    else do
      let orphanHeader ← modifyGet fun s =>
        let (header, pool) := s.orphanPool.getOrphanHeader tempHeader.previousHash
        (header, { s with orphanPool := pool })
      match orphanHeader with
      | some header => collectReorgHeaders passes header (tempHeader :: reorgHeaders)
      | none =>
        match s.blockDB.getBlockHeader tempHeader.previousHash with
        | some header => collectReorgHeaders passes header (tempHeader :: reorgHeaders)
        | none => pure none

/-- `BlockHeaderProcessor::ProcessOrphan`. -/
def processOrphan (header : BlockHeader) : Exec Exc ChainState EBlockChainStatus := do
  let s ← get
  let totalDifficulty := s.getTotalDifficulty .candidate
  let reorgHeaders ← collectReorgHeaders G G.loopBound header []
  match reorgHeaders with
  | none => do
    modifyOrphanPool (OrphanPool.addOrphanHeader G header)
    pure .orphaned
  | some reorgHeaders => adoptHeaders G now reorgHeaders header.getTotalDifficulty totalDifficulty

/-- The body of `BlockHeaderProcessor::ProcessSingleHeader` under the lock. -/
def processSingleHeaderLocked (header : BlockHeader) : Exec Exc ChainState EBlockChainStatus := do
  let s ← get
  if (s.blockDB.getBlockHeader (header.getHash G)).isSome then pure .alreadyExists
  else if s.candidate.getTipHash ≠ header.previousHash then processOrphan G now header
  else
    match s.blockDB.getBlockHeader s.candidate.getTipHash with
    | none => throw .undefined
    | some previous => do
      validate G now header previous
      modifyDB (BlockDB.addBlockHeader G header)
      updateHeaderMMR (HeaderMMR.addHeader G header)
      updateCandidate (Chain.addBlock (header.getHash G) header.getHeight)
      modify (ChainState.commit G)
      pure .success

/-- `BlockHeaderProcessor::ProcessSingleHeader`. -/
def processSingleHeader (header : BlockHeader) : Exec Exc ChainState EBlockChainStatus :=
  if header.getHash G ∈ badBlocks then pure .invalid
  else batch (processSingleHeaderLocked G now header)

/-- The body of `BlockHeaderProcessor::ProcessChunkedSyncHeaders` under the lock, with
`PrepareSyncChain`. -/
def processChunkedSyncHeadersLocked (headers : List BlockHeader) :
    Exec Exc ChainState EBlockChainStatus :=
  match headers with
  | [] => throw .undefined
  | first :: _ => do
    let s ← get
    let totalDifficulty := s.getTotalDifficulty .candidate
    if s.candidate.isOnChain (decrement first.getHeight) first.previousHash = false then
      throw (.blockChain "Previous header not found on chain.")
    else
      match headers.dropWhile fun h => s.candidate.isOnChain h.getHeight (h.getHash G) with
      | [] => pure .alreadyExists
      | newHeaders@(_ :: _) =>
        adoptHeaders G now newHeaders ((newHeaders.getLast?.map (·.getTotalDifficulty)).getD 0)
          totalDifficulty

/-- `BlockHeaderProcessor::ProcessChunkedSyncHeaders`. -/
def processChunkedSyncHeaders (headers : List BlockHeader) :
    Exec Exc ChainState EBlockChainStatus :=
  batch (processChunkedSyncHeadersLocked G now headers)

/-- The loop of `BlockHeaderProcessor::ProcessSyncHeaders`. -/
def processChunks : List (List BlockHeader) → Exec Exc ChainState EBlockChainStatus
  | [] => pure .success
  | chunk :: chunks => do
    let status ← processChunkedSyncHeaders G now chunk
    if status ≠ .success ∧ status ≠ .alreadyExists then pure status
    else processChunks chunks

/-- The chunks that `BlockHeaderProcessor::ProcessSyncHeaders` hands on, while it goes through
the headers from an index on with the chunk that it has begun. -/
def chunksFrom : ℕ → List BlockHeader → List BlockHeader → List (List BlockHeader)
  | _, _, [] => []
  | index, chunkedHeaders, header :: headers =>
    if (index + 1) % syncBatchSize = 0 ∨ headers = [] then
      (chunkedHeaders ++ [header]) :: chunksFrom (index + 1) [] headers
    else chunksFrom (index + 1) (chunkedHeaders ++ [header]) headers

/-- Every height is the previous one plus one, in 64 bits. -/
def headersSorted (headers : List BlockHeader) : Bool :=
  (headers.zip headers.tail).all fun p => decide (p.2.height = p.1.height + 1)

/-- `BlockHeaderProcessor::ProcessSyncHeaders`. -/
def processSyncHeaders (headers : List BlockHeader) : Exec Exc ChainState EBlockChainStatus :=
  match headers with
  | [] => pure .success
  | first :: _ =>
    if ∃ h ∈ headers, h.getHash G ∈ badBlocks then
      throw (.badData .badBlockHeader "Header included in BAD_BLOCKS")
    else if first.getHeight = 0 then
      throw (.badData .badBlockHeader "Header with height 0 received.")
    else if headersSorted headers = false then
      throw (.badData .badBlockHeader "Headers not sorted.")
    else processChunks G now (chunksFrom 0 [] headers)

end BlockHeaderProcessor

namespace ChainResyncer

open ChainState

variable (G : Global)

/-- The loop of `ChainResyncer::ResyncChain`, over the candidate hashes from height `i` on. -/
def resyncHeaders : List Hash → ℕ → Option BlockHeader → Exec Exc ChainState Unit
  | [], _, _ => pure ()
  | hash :: hashes, i, previous => do
    let s ← get
    match s.blockDB.getBlockHeader hash with
    | none => updateCandidate (Chain.rewind (i - 1))
    | some header =>
      match previous with
      | none => throw .undefined
      | some p =>
        if header.previousHash ≠ p.getHash G then updateCandidate (Chain.rewind (i - 1))
        else do
          updateHeaderMMR (HeaderMMR.addHeader G header)
          resyncHeaders hashes (i + 1) (some header)

/-- The body of `ChainResyncer::ResyncChain` under the lock. -/
def resyncChainLocked : Exec Exc ChainState Unit := do
  modifyDB BlockDB.clear
  updateConfirmed (Chain.rewind 0)
  updateHeaderMMR (HeaderMMR.rewind 1)
  let s ← get
  resyncHeaders G s.candidate.hashes.tail 1 (s.getBlockHeaderByHeight 0 .candidate)
  modify (ChainState.commit G)

/-- `ChainResyncer::ResyncChain`. -/
def resyncChain : Exec Exc ChainState Unit :=
  batch (resyncChainLocked G)

end ChainResyncer

end GrinPlusPlus
