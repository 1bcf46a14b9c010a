import GrinPlusPlus.BlockChain.OrphanPool
import GrinPlusPlus.TxPool.TransactionPool

/-!
# The state of the chain

`ChainState` and `ChainStore`: the two chains, the block database, the header MMR and the
transaction hash set, which are written in batches, and the orphan pool and the transaction
pools, which are not.

A call takes the write lock for the whole batch, so calls are steps
(`GrinPlusPlus.ChainState.batch`): whatever the body does – also when it throws – ends with
the rollback that the destructor of the `Writer` makes, which undoes everything that was not
committed (`GrinPlusPlus.ChainState.rollback_eq`).

`GrinPlusPlus.ChainState.accepted` is a history variable: it has no counterpart in the
source and is never read. It lists the headers that `BlockHeaderValidator::Validate`
accepted.
-/

namespace GrinPlusPlus

open MMRHashUtil

/-- `ChainState`. -/
structure ChainState where
  /-- `ChainStore::m_pCandidateChain`. -/
  candidate : Chain
  /-- `ChainStore::m_pConfirmedChain`. -/
  confirmed : Chain
  /-- `m_pBlockDB`. -/
  blockDB : BlockDB
  /-- `m_pHeaderMMR`. -/
  headerMMR : HeaderMMR
  /-- The hash set of `m_pTxHashSetManager`. -/
  txHashSet : Option TxHashSet
  /-- `m_pOrphanPool`. -/
  orphanPool : OrphanPool
  /-- `m_pTransactionPool`. -/
  txPool : TransactionPool
  /-- The headers that were accepted so far. -/
  accepted : List BlockHeader

namespace ChainState

/-- `ChainStore::GetChain`. -/
def getChain (s : ChainState) : EChainType → Chain
  | .candidate => s.candidate
  | .confirmed => s.confirmed

/-- `ChainState::GetTipBlockHeader`. -/
def getTipBlockHeader (s : ChainState) (chainType : EChainType) : Option BlockHeader :=
  s.blockDB.getBlockHeader (s.getChain chainType).getTipHash

/-- `ChainState::GetTotalDifficulty`. -/
def getTotalDifficulty (s : ChainState) (chainType : EChainType) : ℕ :=
  match s.getTipBlockHeader chainType with
  | some header => header.getTotalDifficulty
  | none => 0

/-- `ChainState::GetBlockHeaderByHeight`. -/
def getBlockHeaderByHeight (s : ChainState) (height : ℕ) (chainType : EChainType) :
    Option BlockHeader :=
  ((s.getChain chainType).getByHeight height).bind s.blockDB.getBlockHeader

/-- The greatest height up to a given one at which the chains agree. The genesis blocks
agree, so the loop of the source ends there. -/
def findCommonHeight (a b : Chain) : ℕ → ℕ
  | 0 => 0
  | height + 1 =>
    if a.getByHeight (height + 1) = b.getByHeight (height + 1) then height + 1
    else findCommonHeight a b height

/-- `ChainStore::FindCommonIndex`: the height of the index. -/
def findCommonIndex (s : ChainState) : ℕ :=
  findCommonHeight s.candidate s.confirmed (min s.candidate.getHeight s.confirmed.getHeight)

/-- `ChainState::Commit`. -/
def commit (G : Global) (s : ChainState) : ChainState :=
  { s with
    candidate := s.candidate.commit
    confirmed := s.confirmed.commit
    blockDB := s.blockDB.commit G
    headerMMR := s.headerMMR.commit
    txHashSet := s.txHashSet.map TxHashSet.commit }

/-- `ChainState::Rollback`. -/
def rollback (s : ChainState) : ChainState :=
  { s with
    candidate := s.candidate.rollback
    confirmed := s.confirmed.rollback
    blockDB := s.blockDB.rollback
    headerMMR := s.headerMMR.rollback
    txHashSet := s.txHashSet.map TxHashSet.rollback }

/-- A call that takes the batch lock: the destructor of the writer rolls back. -/
def batch {α : Type} (x : Exec Exc ChainState α) : Exec Exc ChainState α :=
  Exec.ofRun fun s => ((Exec.run x s).1, (Exec.run x s).2.rollback)

/-- Nothing is pending. -/
structure AtRest (s : ChainState) : Prop where
  /-- In the candidate chain … -/
  candidate : s.candidate.AtRest
  /-- … in the confirmed chain … -/
  confirmed : s.confirmed.AtRest
  /-- … in the database … -/
  blockDB : s.blockDB.AtRest
  /-- … in the header MMR … -/
  headerMMR : s.headerMMR.AtRest
  /-- … and in the transaction hash set. -/
  txHashSet : ∀ t ∈ s.txHashSet, TxHashSet.AtRest t

/-! ### The components -/

/-- Change the candidate chain. -/
def updateCandidate (f : Chain → Except Exc Chain) : Exec Exc ChainState Unit :=
  Exec.update fun s => do
    let c ← f s.candidate
    .ok { s with candidate := c }

/-- Change the confirmed chain. -/
def updateConfirmed (f : Chain → Except Exc Chain) : Exec Exc ChainState Unit :=
  Exec.update fun s => do
    let c ← f s.confirmed
    .ok { s with confirmed := c }

/-- Change the header MMR. -/
def updateHeaderMMR (f : HeaderMMR → Except Exc HeaderMMR) : Exec Exc ChainState Unit :=
  Exec.update fun s => do
    let m ← f s.headerMMR
    .ok { s with headerMMR := m }

/-- Change the database. -/
def modifyDB (f : BlockDB → BlockDB) : Exec Exc ChainState Unit :=
  modify fun s => { s with blockDB := f s.blockDB }

/-- Change the orphan pool. -/
def modifyOrphanPool (f : OrphanPool → OrphanPool) : Exec Exc ChainState Unit :=
  modify fun s => { s with orphanPool := f s.orphanPool }

/-- A method of the transaction hash set; there is none while the state is downloaded. -/
def onTxHashSet {α : Type} (isNull : Exc) (x : Exec Exc UtxoState α) :
    Exec Exc ChainState α :=
  Exec.ofRun fun s =>
    match s.txHashSet with
    | none => (.error isNull, s)
    | some t =>
      let r := Exec.run x ⟨s.blockDB, t⟩
      (r.1, { s with blockDB := r.2.blockDB, txHashSet := some r.2.txHashSet })

theorem run_onTxHashSet {α : Type} {isNull : Exc} {x : Exec Exc UtxoState α} {s : ChainState}
    {a : TxHashSet} {r : Except Exc α} {y : UtxoState} (htx : s.txHashSet = some a)
    (hy : Exec.run x ⟨s.blockDB, a⟩ = (r, y)) :
    Exec.run (onTxHashSet isNull x) s =
      (r, { s with blockDB := y.blockDB, txHashSet := some y.txHashSet }) := by
  rw [onTxHashSet, Exec.run_ofRun, htx]
  dsimp only
  rw [hy]

theorem run_onTxHashSet_none {α : Type} {isNull : Exc} {x : Exec Exc UtxoState α}
    {s : ChainState} (htx : s.txHashSet = none) :
    Exec.run (onTxHashSet isNull x) s = (.error isNull, s) := by
  rw [onTxHashSet, Exec.run_ofRun, htx]

/-! ### What is permanent -/

/-- What the last commits made permanent, with the header cache. -/
structure Permanent where
  /-- The candidate chain. -/
  candidate : Indices
  /-- The confirmed chain. -/
  confirmed : Indices
  /-- The tables of the database. -/
  tables : Tables
  /-- The header cache. -/
  headersCache : Cache Hash BlockHeader
  /-- The header MMR. -/
  headerMMR : List Hash
  /-- The transaction hash set. -/
  txHashSet : Option TxHashSet.Permanent

/-- The permanent part of the state. -/
def permanent (s : ChainState) : Permanent where
  candidate := s.candidate.committed
  confirmed := s.confirmed.committed
  tables := s.blockDB.tables.committed
  headersCache := s.blockDB.headersCache
  headerMMR := s.headerMMR.committed
  txHashSet := s.txHashSet.map TxHashSet.permanent

/-- The state without its pools, which no rollback restores. -/
def withPoolsOf (t s : ChainState) : ChainState :=
  { s with orphanPool := t.orphanPool, txPool := t.txPool, accepted := t.accepted }

/-- **A rollback restores everything but the pools**, as long as nothing was made permanent
since. -/
theorem rollback_eq {s t : ChainState} (hs : s.AtRest) (h : t.permanent = s.permanent) :
    t.rollback = t.withPoolsOf s := by
  simp only [permanent, Permanent.mk.injEq] at h
  obtain ⟨hcand, hconf, htab, hcache, hmmr, htx⟩ := h
  have htx' : t.txHashSet.map TxHashSet.rollback = s.txHashSet := by
    rcases hst : s.txHashSet with _ | a
    · rw [hst, Option.map_none, Option.map_eq_none_iff] at htx
      rw [htx, Option.map_none]
    · rw [hst, Option.map_some, Option.map_eq_some_iff] at htx
      obtain ⟨b, hb, hab⟩ := htx
      rw [hb, Option.map_some, TxHashSet.rollback_eq (hs.txHashSet a hst) hab]
  rw [rollback, withPoolsOf, Batch.rollback_eq hs.candidate hcand,
    Batch.rollback_eq hs.confirmed hconf, BlockDB.rollback_eq hs.blockDB htab hcache,
    Batch.rollback_eq hs.headerMMR hmmr, htx']

/-- A batch that was committed stays. -/
theorem rollback_commit (G : Global) (u : ChainState) :
    (u.commit G).rollback =
      { u with
        candidate := u.candidate.commit
        confirmed := u.confirmed.commit
        blockDB := u.blockDB.commit G
        headerMMR := u.headerMMR.commit
        txHashSet := u.txHashSet.map fun t => t.commit.rollback } := by
  have hdb : (u.blockDB.commit G).rollback = u.blockDB.commit G := by
    simp only [BlockDB.rollback, BlockDB.commit, Batch.rollback_commit]
  rw [commit, rollback]
  simp only [Batch.rollback_commit, hdb, Option.map_map]
  rfl

/-- A committed batch in which the hash set was not written. -/
theorem rollback_commit_eq {G : Global} {s u : ChainState} (hs : s.AtRest)
    (htx : u.txHashSet = s.txHashSet) :
    (u.commit G).rollback =
      { u with
        candidate := u.candidate.commit
        confirmed := u.confirmed.commit
        blockDB := u.blockDB.commit G
        headerMMR := u.headerMMR.commit } := by
  have htx' : (u.txHashSet.map fun t => t.commit.rollback) = u.txHashSet := by
    rw [htx]
    rcases hst : s.txHashSet with _ | a
    · rfl
    · rw [Option.map_some, TxHashSet.rollback_commit_of_atRest (hs.txHashSet a hst)]
  rw [rollback_commit, htx']

/-- After a rollback nothing is pending. -/
theorem rollback_atRest (s : ChainState) : s.rollback.AtRest where
  candidate := Batch.rollback_atRest _
  confirmed := Batch.rollback_atRest _
  blockDB := ⟨Batch.rollback_atRest _, rfl⟩
  headerMMR := Batch.rollback_atRest _
  txHashSet := by
    intro t ht
    rw [rollback, Option.mem_def, Option.map_eq_some_iff] at ht
    obtain ⟨u, -, rfl⟩ := ht
    exact ⟨Batch.rollback_atRest _, Batch.rollback_atRest _, Batch.rollback_atRest _, rfl⟩

/-- A call that takes the lock leaves nothing pending. -/
theorem batch_atRest {α : Type} (x : Exec Exc ChainState α) (s : ChainState) :
    (Exec.run (batch x) s).2.AtRest :=
  rollback_atRest _

/-- A call whose body left the permanent part alone only changed the pools. -/
theorem run_batch_of_same {α : Type} {x : Exec Exc ChainState α} {s u : ChainState}
    {r : Except Exc α} (hs : s.AtRest) (hx : Exec.run x s = (r, u))
    (h : u.permanent = s.permanent) : Exec.run (batch x) s = (r, u.withPoolsOf s) := by
  rw [batch, Exec.run_ofRun, hx, rollback_eq hs h]

/-- **A call that throws only changed the pools**, when its body makes nothing permanent before
it throws. -/
theorem run_batch_of_fails {α : Type} {x : Exec Exc ChainState α} {s t : ChainState} {e : Exc}
    (hs : s.AtRest) (hx : Exec.Fails (Exec.Same permanent) x)
    (h : Exec.run (batch x) s = (.error e, t)) : t = t.withPoolsOf s := by
  rcases hr : Exec.run x s with ⟨r, u⟩
  rw [batch, Exec.run_ofRun, hr, Prod.mk.injEq] at h
  obtain ⟨rfl, rfl⟩ := h
  rw [rollback_eq hs (hx s e u hr)]
  rfl

section Steps

open Exec

theorem steps_updateCandidate {f : Chain → Except Exc Chain}
    (hf : ∀ c c', f c = .ok c' → c'.committed = c.committed) :
    Steps (Same permanent) (updateCandidate f) := by
  refine steps_update fun s t h => ?_
  obtain ⟨c, hc, h⟩ := of_bind_eq_ok h
  cases h
  simp only [Same, permanent, hf _ _ hc]

theorem steps_updateConfirmed {f : Chain → Except Exc Chain}
    (hf : ∀ c c', f c = .ok c' → c'.committed = c.committed) :
    Steps (Same permanent) (updateConfirmed f) := by
  refine steps_update fun s t h => ?_
  obtain ⟨c, hc, h⟩ := of_bind_eq_ok h
  cases h
  simp only [Same, permanent, hf _ _ hc]

theorem steps_updateHeaderMMR {f : HeaderMMR → Except Exc HeaderMMR}
    (hf : ∀ m m', f m = .ok m' → m'.committed = m.committed) :
    Steps (Same permanent) (updateHeaderMMR f) := by
  refine steps_update fun s t h => ?_
  obtain ⟨m, hm, h⟩ := of_bind_eq_ok h
  cases h
  simp only [Same, permanent, hf _ _ hm]

theorem steps_modifyDB {f : BlockDB → BlockDB}
    (hf : ∀ db, (f db).tables.committed = db.tables.committed ∧
      (f db).headersCache = db.headersCache) :
    Steps (Same permanent) (modifyDB f) :=
  steps_modify fun s => by simp only [Same, permanent, (hf s.blockDB).1, (hf s.blockDB).2]

theorem steps_modifyOrphanPool (f : OrphanPool → OrphanPool) :
    Steps (Same permanent) (modifyOrphanPool f) :=
  steps_modify fun _ => rfl

/-- A method of the hash set that leaves its permanent part alone. -/
theorem steps_onTxHashSet {α : Type} {isNull : Exc} {x : Exec Exc UtxoState α}
    (hx : Steps (Same UtxoState.permanent) x) :
    Steps (Same permanent) (onTxHashSet isNull x) := by
  intro s
  rw [onTxHashSet, run_ofRun]
  rcases ht : s.txHashSet with _ | t
  · exact rfl
  · have h := hx ⟨s.blockDB, t⟩
    simp only [Same, UtxoState.permanent, Prod.mk.injEq] at h
    simp only [Same, permanent, ht, Option.map_some, h]

end Steps

/-! ### The first state -/

/-- The files of a range with one leaf. -/
def genesisFiles {α : Type} (G : Global) (serialized : α → List UInt8) (leaf : α) :
    Except Exc (PruneableFiles α) :=
  PruneableFiles.append G serialized leaf ⟨[], fun _ => false, .empty, []⟩

/-- `ChainState::Create` and `BlockChain::Create` on empty stores. -/
def create (G : Global) : Except Exc ChainState := do
  let header := G.genesisBlock.header
  let hash := header.getHash G
  let output ← orThrow G.genesisBlock.body.outputs.head? .undefined
  let kernel ← orThrow G.genesisBlock.body.kernels.head? .undefined
  let headerMMR ← HeaderMMR.addHeader G header (Batch.of [])
  let kernelFiles ← KernelFiles.applyKernel G kernel ⟨[], []⟩
  let outputFiles ←
    genesisFiles G OutputIdentifier.serialize (OutputIdentifier.fromOutput output)
  let rangeProofFiles ← genesisFiles G RangeProof.serialize output.rangeProof
  let rewardCommitment ← commitTransparent G Consensus.reward
  let outputSum ← addCommitments G [output.commitment] [rewardCommitment]
  let chain : Chain := Batch.of ⟨[hash], by simp⟩
  let txHashSet : TxHashSet :=
    ⟨Batch.of kernelFiles, Batch.of outputFiles, Batch.of rangeProofFiles, header, header⟩
  let blockDB : BlockDB :=
    { tables := Batch.of
        { header := Function.update (fun _ => none) hash (some header.reload)
          block := fun _ => none
          blockSums := Function.update (fun _ => none) hash
            (some ⟨outputSum, kernel.excessCommitment⟩)
          outputPos := fun _ => none
          spentOutputs := fun _ => none }
      headersCache := [(hash, header)]
      uncommitted := [] }
  .ok
    { candidate := chain
      confirmed := chain
      blockDB := (txHashSet.saveOutputPositions chain blockDB).commit G
      headerMMR := headerMMR.commit
      txHashSet := some txHashSet
      orphanPool := ⟨[], []⟩
      txPool := ⟨[], []⟩
      accepted := [] }

variable (G : Global) in
/-- What the first state is, as far as headers go. -/
structure Created (s : ChainState) : Prop where
  /-- Nothing is pending. -/
  atRest : s.AtRest
  /-- The candidate chain is the genesis block … -/
  candidate : s.candidate.hashes = [G.genesisBlock.header.getHash G]
  /-- … and so is the confirmed chain. -/
  confirmed : s.confirmed.hashes = [G.genesisBlock.header.getHash G]
  /-- The header MMR has its cycle. -/
  range : IsRangeOf G s.headerMMR.current [G.genesisBlock.header.proofOfWork.serializeCycle]
  /-- Its header is the one of the table … -/
  table : s.blockDB.tables.current.header =
    Function.update (fun _ => none) (G.genesisBlock.header.getHash G)
      (some G.genesisBlock.header.reload)
  /-- … and the one of the cache. -/
  cache : s.blockDB.headersCache = [(G.genesisBlock.header.getHash G, G.genesisBlock.header)]
  /-- The orphan pool is empty. -/
  orphanPool : s.orphanPool = ⟨[], []⟩
  /-- Nothing was accepted yet. -/
  accepted : s.accepted = []

/-- **The first state.** -/
theorem created_of_create {G : Global} {s : ChainState} (h : create G = .ok s) :
    Created G s := by
  obtain ⟨output, -, h⟩ := Exec.of_bind_eq_ok h
  obtain ⟨kernel, -, h⟩ := Exec.of_bind_eq_ok h
  obtain ⟨headerMMR, hm, h⟩ := Exec.of_bind_eq_ok h
  obtain ⟨kernelFiles, -, h⟩ := Exec.of_bind_eq_ok h
  obtain ⟨outputFiles, -, h⟩ := Exec.of_bind_eq_ok h
  obtain ⟨rangeProofFiles, -, h⟩ := Exec.of_bind_eq_ok h
  obtain ⟨rewardCommitment, -, h⟩ := Exec.of_bind_eq_ok h
  obtain ⟨outputSum, -, h⟩ := Exec.of_bind_eq_ok h
  cases h
  have hnil : IsRangeOf G (Batch.of ([] : List Hash)).current [] := Mountain.isRange_nil
  obtain ⟨m, hm', hrange, -⟩ := HeaderMMR.addHeader_ok hnil G.genesisBlock.header
  rw [hm] at hm'
  cases hm'
  refine ⟨⟨rfl, rfl, ⟨Batch.commit_atRest _, rfl⟩, Batch.commit_atRest _, ?_⟩, rfl, rfl, ?_, ?_,
    ?_, rfl, rfl⟩
  · intro t ht
    cases ht
    exact ⟨rfl, rfl, rfl, rfl⟩
  · rw [Batch.commit_current]
    exact hrange
  · dsimp only [BlockDB.commit]
    rw [Batch.commit_current, (TxHashSet.onlyPositions_saveOutputPositions _ _ _).current]
    rfl
  · have hpos := TxHashSet.onlyPositions_saveOutputPositions
    dsimp only [BlockDB.commit]
    rw [(hpos _ _ _).uncommitted, (hpos _ _ _).headersCache]
    rfl

end ChainState

end GrinPlusPlus
