import GrinPlusPlus.BlockChain.BlockHeaderProcessor
import Mathlib.Data.List.Sort

/-!
# The cache of header batches

`HeaderBatchCache` collects the batches of headers that peers send, in whatever order they come.
A batch is handed to `IBlockChain::AddBlockHeaders` as soon as the header before it is on the
candidate chain, and batches that follow it directly are *merged* into it first, whoever sent
them.

The block chain is an interface here, as it is in the source
(`GrinPlusPlus.IBlockChain`), and `GrinPlusPlus.BlockChain.iBlockChain` is the one of this
project. The cache keeps a record of what it handed on (`GrinPlusPlus.HeaderBatchCache.Processed`):
the source only has the calls of `BanPeer` and lines of the log.
-/

namespace GrinPlusPlus

open Exec

/-! ### The block chain -/

/-- What the cache uses of `IBlockChain`, over the states of a chain. -/
structure IBlockChain (σ : Type) where
  /-- `GetBlockHeaderByHeight`, on the candidate chain. -/
  getBlockHeaderByHeight : σ → ℕ → Option BlockHeader
  /-- `AddBlockHeaders`. -/
  addBlockHeaders : List BlockHeader → Exec Exc σ EBlockChainStatus

namespace BlockChain

/-- `BlockChain::AddBlockHeaders`: bad data is thrown on, and nothing else is. -/
def addBlockHeaders (G : Global) (now : ℤ) (headers : List BlockHeader) :
    Exec Exc ChainState EBlockChainStatus :=
  Exec.ofRun fun s =>
    let r := run (BlockHeaderProcessor.processSyncHeaders G now headers) s
    (match r.1 with
      | .error (.badData reason message) => .error (.badData reason message)
      | result => catching result (.ok .unknownError), r.2)

/-- The interface to the state of the node. -/
def iBlockChain (G : Global) (now : ℤ) : IBlockChain ChainState where
  getBlockHeaderByHeight s height := s.getBlockHeaderByHeight height .candidate
  addBlockHeaders := addBlockHeaders G now

end BlockChain

namespace HeaderBatchCache

/-! ### The batches -/

/-- `MAX_CACHED_HEADER_BATCHES`. -/
def maxCachedHeaderBatches : ℕ := 16

/-- `PIHD_MAX_PROCESS_HEADER_BATCH_SIZE`. -/
def pihdMaxProcessHeaderBatchSize : ℕ := 2048

/-- `P2P::MAX_BLOCK_HEADERS`. -/
def maxBlockHeaders : ℕ := 512

/-- `HeaderBatchCache::Source`. -/
inductive Source
  | legacyHeaders
  | pihdSegment
deriving DecidableEq

/-- `GetMaxProcessHeaderBatchSize`. -/
def getMaxProcessHeaderBatchSize : Source → ℕ
  | .pihdSegment => pihdMaxProcessHeaderBatchSize
  | .legacyHeaders => maxBlockHeaders

/-- `HeaderBatchCache::CachedBatch`. The pointer to the connection may be null. -/
structure CachedBatch (C : Type) where
  /-- The headers. -/
  headers : List BlockHeader
  /-- The connection they came from. -/
  connection : Option C
  /-- The message they came with. -/
  source : Source

variable {σ C : Type}

/-- `HeaderBatchCache::StartsBefore`. -/
def startsBefore (lhs rhs : CachedBatch C) : Bool :=
  match lhs.headers, rhs.headers with
  | [], _ => false
  | _ :: _, [] => true
  | a :: _, b :: _ => decide (a.getHeight < b.getHeight)

/-- `std::sort` with `StartsBefore`. It is left open how batches are ordered that start at the
same height. -/
structure BatchSort (C : Type) where
  /-- The sorted batches. -/
  sort : List (CachedBatch C) → List (CachedBatch C)
  /-- They are the same ones. -/
  perm : ∀ l, (sort l).Perm l
  /-- None starts before one that comes earlier. -/
  sorted : ∀ l, (sort l).Pairwise fun a b => startsBefore b a = false

/-- A batch may stand before another one. -/
def MayPrecede (a b : CachedBatch C) : Prop := startsBefore b a = false

instance decidableMayPrecede : DecidableRel (MayPrecede (C := C)) := fun _ _ =>
  inferInstanceAs (Decidable (_ = false))

instance isTransMayPrecede : IsTrans (CachedBatch C) MayPrecede where
  trans a b c := by
    rcases a with ⟨_ | ⟨a, _⟩, _, _⟩ <;> rcases b with ⟨_ | ⟨b, _⟩, _, _⟩ <;>
      rcases c with ⟨_ | ⟨c, _⟩, _, _⟩ <;> simp [MayPrecede, startsBefore]
    omega

instance totalMayPrecede : Std.Total (MayPrecede (C := C)) where
  total a b := by
    rcases a with ⟨_ | ⟨a, _⟩, _, _⟩ <;> rcases b with ⟨_ | ⟨b, _⟩, _, _⟩ <;>
      simp [MayPrecede, startsBefore]
    omega

/-- A sort that keeps the order of batches that start at the same height. -/
def stableSort : BatchSort C where
  sort := List.insertionSort MayPrecede
  perm := List.perm_insertionSort MayPrecede
  sorted := List.pairwise_insertionSort MayPrecede

/-- The headers of several batches, one batch behind the other. -/
def mergedHeaders (parts : List (CachedBatch C)) : List BlockHeader :=
  parts.flatMap CachedBatch.headers

/-! ### What is asked about a batch -/

section Queries

variable (G : Global) (chain : IBlockChain σ)

/-- `HeaderBatchCache::TrimAlreadyKnownPrefix`. -/
def trimAlreadyKnownPrefix (s : σ) (headers : List BlockHeader) : List BlockHeader :=
  headers.dropWhile fun h =>
    match chain.getBlockHeaderByHeight s h.getHeight with
    | none => false
    | some known => decide (known.getHash G = h.getHash G)

/-- `HeaderBatchCache::IsReady`. -/
def isReady (s : σ) : List BlockHeader → Bool
  | [] => false
  | first :: _ =>
    if first.getHeight = 0 then true
    else
      match chain.getBlockHeaderByHeight s (first.getHeight - 1) with
      | none => false
      | some previous => decide (previous.getHash G = first.previousHash)

/-- `HeaderBatchCache::IsDuplicate`. -/
def isDuplicate (batches : List (CachedBatch C)) (headers : List BlockHeader) : Bool :=
  batches.any fun batch => !batch.headers.isEmpty &&
    (decide (batch.headers.head?.map (·.getHash G) = headers.head?.map (·.getHash G)) ||
      decide (batch.headers.getLast?.map (·.getHash G) = headers.getLast?.map (·.getHash G)))

/-- The headers can be merged behind others: they follow the last one, in 64 bits, and there is
room for them. -/
def canAppend (maxSize : ℕ) (merged next : List BlockHeader) : Bool :=
  match merged.getLast?, next with
  | some currentLast, nextHeader :: _ =>
    decide (nextHeader.height = currentLast.height + 1) &&
      decide (nextHeader.previousHash = currentLast.getHash G) &&
      decide (next.length ≤ maxSize - merged.length)
  | _, _ => false

end Queries

/-! ### Going through the cache -/

/-- How a pass over the cache ends. -/
inductive Scan (C : Type)
  /-- At the end of the cache. -/
  | done (batches : List (CachedBatch C))
  /-- At a batch with known headers only, which is erased. -/
  | known (batches : List (CachedBatch C))
  /-- At a batch that was looked for, which is erased. -/
  | found (batch : CachedBatch C) (batches : List (CachedBatch C))

/-- A pass that has gone on behind a batch. -/
def Scan.cons (batch : CachedBatch C) : Scan C → Scan C
  | .done batches => .done (batch :: batches)
  | .known batches => .known (batch :: batches)
  | .found b batches => .found b (batch :: batches)

section Loops

variable (G : Global) (chain : IBlockChain σ)

/-- The inner loop of `ProcessReadyBatches` and of `TryAppendContiguousReadyBatches`: every batch
that is not skipped is trimmed on the way. -/
def scan (s : σ) (skip : CachedBatch C → Bool) (wanted : List BlockHeader → Bool) :
    List (CachedBatch C) → Scan C
  | [] => .done []
  | batch :: batches =>
    if skip batch then (scan s skip wanted batches).cons batch
    else
      let headers := trimAlreadyKnownPrefix G chain s batch.headers
      if headers.isEmpty then .known batches
      else if wanted headers then .found { batch with headers := headers } batches
      else (scan s skip wanted batches).cons { batch with headers := headers }

variable (S : BatchSort C)

/-- The loop of `HeaderBatchCache::TryAppendContiguousReadyBatches`: the batches that are merged,
and those that stay in the cache. Every round takes a batch out of the cache, so there are at most
as many rounds as there are batches. -/
def tryAppendContiguousReadyBatches (s : σ) (source : Source) :
    ℕ → List (CachedBatch C) → List (CachedBatch C) →
      List (CachedBatch C) × List (CachedBatch C)
  | 0, parts, batches => (parts, batches)
  | rounds + 1, parts, batches =>
    let maxSize := getMaxProcessHeaderBatchSize source
    if (mergedHeaders parts).length < maxSize then
      match scan G chain s (fun b => decide (b.source ≠ source) || b.headers.isEmpty)
        (canAppend G maxSize (mergedHeaders parts)) (S.sort batches) with
      | .done batches => (parts, batches)
      | .known batches => tryAppendContiguousReadyBatches s source rounds parts batches
      | .found batch batches =>
        tryAppendContiguousReadyBatches s source rounds (parts ++ [batch]) batches
    else (parts, batches)

end Loops

/-! ### The cache -/

/-- Batches that were handed to the chain as one, and what came of it. -/
structure Processed (σ C : Type) where
  /-- The state of the chain before. -/
  chain : σ
  /-- The batches. -/
  parts : List (CachedBatch C)
  /-- The result of `AddBlockHeaders`. -/
  result : Except Exc EBlockChainStatus

/-- The headers that were handed on. -/
def Processed.headers (p : Processed σ C) : List BlockHeader := mergedHeaders p.parts

/-- The connection that is held responsible: the one of the first batch that has one. -/
def Processed.connection (p : Processed σ C) : Option C :=
  p.parts.findSome? CachedBatch.connection

/-- The reason for a ban, if there is one. -/
def banReason : Except Exc EBlockChainStatus → Option EBanReason
  | .ok .invalid => some .badBlockHeader
  | .error (.badData reason _) => some reason
  | _ => none

/-- The call of `BanPeer`, if there is one. -/
def Processed.banPeer (p : Processed σ C) : Option (C × EBanReason) :=
  match p.connection, banReason p.result with
  | some connection, some reason => some (connection, reason)
  | _, _ => none

end HeaderBatchCache

open HeaderBatchCache in
/-- `HeaderBatchCache`, with the chain that it works on. -/
structure HeaderBatchCache (σ C : Type) where
  /-- The state of the chain. -/
  chain : σ
  /-- `HeaderBatchCache::m_batches`. -/
  batches : List (CachedBatch C)
  /-- What was handed to the chain so far. -/
  processed : List (Processed σ C)

namespace HeaderBatchCache

variable {σ C : Type} (G : Global) (chain : IBlockChain σ) (S : BatchSort C)

/-- Merged batches are handed to the chain. Exceptions are caught. -/
def addMerged (parts : List (CachedBatch C)) : Exec Exc (HeaderBatchCache σ C) Unit :=
  Exec.ofRun fun m =>
    let r := run (chain.addBlockHeaders (mergedHeaders parts)) m.chain
    (catching (r.1.map fun _ => ()) (.ok ()),
      { m with chain := r.2, processed := m.processed ++ [⟨m.chain, parts, r.1⟩] })

/-- The loop of `HeaderBatchCache::ProcessReadyBatches`. Every round takes a batch out of the
cache, so there are at most as many rounds as there are batches. -/
def processReadyBatches : ℕ → Exec Exc (HeaderBatchCache σ C) Unit
  | 0 => pure ()
  | rounds + 1 => do
    let m ← get
    match scan G chain m.chain (fun _ => false) (isReady G chain m.chain) (S.sort m.batches) with
    | .done batches => set { m with batches := batches }
    | .known batches => do
      set { m with batches := batches }
      processReadyBatches rounds
    | .found batch batches => do
      let merged := tryAppendContiguousReadyBatches G chain S m.chain batch.source batches.length
        [batch] batches
      set { m with batches := merged.2 }
      addMerged chain merged.1
      processReadyBatches rounds

/-- A batch at the end of the cache; the oldest one is dropped when the cache is full. -/
def pushBack (batches : List (CachedBatch C)) (batch : CachedBatch C) : List (CachedBatch C) :=
  if maxCachedHeaderBatches ≤ batches.length then batches.tail ++ [batch] else batches ++ [batch]

/-- `HeaderBatchCache::AddHeaders`. -/
def addHeaders (connection : Option C) (headers : List BlockHeader) (source : Source) :
    Exec Exc (HeaderBatchCache σ C) Unit := do
  let m ← get
  let headers := trimAlreadyKnownPrefix G chain m.chain headers
  if headers.isEmpty then pure ()
  else if isDuplicate G m.batches headers then pure ()
  else do
    let batches := pushBack m.batches ⟨headers, connection, source⟩
    set { m with batches := batches }
    processReadyBatches G chain S batches.length

/-- A message with headers. -/
structure HeadersMessage (C : Type) where
  /-- The connection it comes from. -/
  connection : C
  /-- The headers. -/
  headers : List BlockHeader
  /-- The kind of the message. -/
  source : Source

/-- The messages are handled one after the other. -/
def addAll (messages : List (HeadersMessage C)) : Exec Exc (HeaderBatchCache σ C) Unit :=
  messages.forM fun message =>
    addHeaders G chain S (some message.connection) message.headers message.source

/-- A cache without batches, over a chain. -/
def empty (s : σ) : HeaderBatchCache σ C := ⟨s, [], []⟩

end HeaderBatchCache

end GrinPlusPlus
